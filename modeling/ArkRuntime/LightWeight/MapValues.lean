import ArkRuntime.LightWeight.MapModel
import ArkRuntime.KeyHash.Model

/-!
# `HasValue` and `GetIndexOfValue` of `LightWeightMap`

Both go through the values from the first on. `HasValue` compares with `SameValue`, `GetIndexOfValue` with
`operator==` of the tagged words, so they agree exactly where the first value that `SameValue` accepts is
the same word.
-/

namespace ArkRuntime

variable {α : Type}

namespace JSAPILightWeightMap

/-- The loop of `HasValue`, `n` rounds from `num` on. -/
def hasValueFrom (ops : MapOps α) (valueArray : Slots α) (value : JSTaggedValue α) :
    Nat → Nat → Option Bool
  | 0, _ => some false
  | n + 1, num => do
      let element ← valueArray[num]?
      if ops.sameValue element value then return true else hasValueFrom ops valueArray value n (num + 1)

/-- `HasValue`. -/
def hasValue (ops : MapOps α) (map : JSAPILightWeightMap α) (value : JSTaggedValue α) : Option Bool :=
  hasValueFrom ops map.values value map.length 0

variable [DecidableEq α]

/-- The loop of `GetIndexOfValue`, `n` rounds from `i` on. Equal words are equal values of the model. -/
def getIndexOfValueFrom (valueArray : Slots α) (compValue : JSTaggedValue α) : Nat → Nat → Option Int
  | 0, _ => some (-1)
  | n + 1, i => do
      let element ← valueArray[i]?
      if element = compValue then return i else getIndexOfValueFrom valueArray compValue n (i + 1)

/-- `GetIndexOfValue`. -/
def getIndexOfValue (map : JSAPILightWeightMap α) (value : JSTaggedValue α) : Option Int :=
  getIndexOfValueFrom map.values value map.length 0

/-! ## What the loops find -/

variable {ops : MapOps α} {map : JSAPILightWeightMap α} {v w : JSTaggedValue α}

/-- The values of the entries, in their order. -/
def entryValues (map : JSAPILightWeightMap α) : List (JSTaggedValue α) := map.values.take map.length

theorem hasValueFrom_eq (values : Slots α) (n num : Nat) (inside : num + n ≤ values.length) :
    hasValueFrom ops values v n num = some (((values.drop num).take n).any (ops.sameValue · v)) := by
  induction n generalizing num with
  | zero => simp [hasValueFrom]
  | succ n ih =>
    have below : num < values.length := by omega
    rw [hasValueFrom, List.getElem?_eq_getElem below, List.drop_eq_getElem_cons below, List.take_succ_cons,
      List.any_cons]
    cases same : ops.sameValue values[num] v with
    | true => simp [same]
    | false => simpa [same] using ih (num + 1) (by omega)

theorem hasValue_eq (inside : map.length ≤ map.values.length) :
    map.hasValue ops v = some (map.entryValues.any (ops.sameValue · v)) :=
  hasValueFrom_eq map.values map.length 0 (by omega)

/-- What `GetIndexOfValue` returns for the place it found. -/
def indexOf (place : Option Nat) : Int := place.elim (-1) fun i => i

theorem getIndexOfValueFrom_eq (values : Slots α) (n i : Nat) (inside : i + n ≤ values.length) :
    getIndexOfValueFrom values v n i =
      some (indexOf ((((values.drop i).take n).findIdx? (decide <| · = v)).map (· + i))) := by
  induction n generalizing i with
  | zero => simp [getIndexOfValueFrom, indexOf]
  | succ n ih =>
    have below : i < values.length := by omega
    rw [getIndexOfValueFrom, List.getElem?_eq_getElem below, List.drop_eq_getElem_cons below,
      List.take_succ_cons, List.findIdx?_cons]
    by_cases same : values[i] = v
    · simp [same, indexOf]
    · have rest := ih (i + 1) (by omega)
      simpa [same, Option.map_map, Function.comp_def, Nat.add_assoc, Nat.add_comm 1 i] using rest

theorem getIndexOfValue_eq (inside : map.length ≤ map.values.length) :
    map.getIndexOfValue v = some (indexOf (map.entryValues.findIdx? (decide <| · = v))) := by
  rw [getIndexOfValue, getIndexOfValueFrom_eq map.values map.length 0 (by omega)]
  simp [entryValues]

/-- The first of the values that is `SameValue` to `v` is at `i`. -/
def FirstAt (ops : MapOps α) (map : JSAPILightWeightMap α) (v : JSTaggedValue α) (i : Nat) : Prop :=
  (∃ x, map.entryValues[i]? = some x ∧ ops.sameValue x v = true) ∧
    ∀ j < i, ∀ x, map.entryValues[j]? = some x → ops.sameValue x v = false

/-- The value is in the map exactly if it has an index, which is that of the first value equal to it. -/
def FindsValue (ops : MapOps α) (map : JSAPILightWeightMap α) (v : JSTaggedValue α) : Prop :=
  ∃ found index, map.hasValue ops v = some found ∧ map.getIndexOfValue v = some index ∧
    (found = true ↔ 0 ≤ index) ∧ (0 ≤ index → FirstAt ops map v index.toNat)

/-- The first of the values that is `SameValue` to `v`, if there is one, is `v` itself. -/
def FirstIsIdentical (ops : MapOps α) (map : JSAPILightWeightMap α) (v : JSTaggedValue α) : Prop :=
  ∀ i x, FirstAt ops map v i → map.entryValues[i]? = some x → x = v

theorem exists_firstAt (found : map.entryValues.any (ops.sameValue · v) = true) :
    ∃ i, FirstAt ops map v i := by
  obtain ⟨i, first⟩ := Option.isSome_iff_exists.mp (List.findIdx?_isSome.trans found)
  obtain ⟨below, same, before⟩ := List.findIdx?_eq_some_iff_getElem.mp first
  refine ⟨i, ⟨_, List.getElem?_eq_getElem below, same⟩, fun j less x read => ?_⟩
  obtain ⟨-, rfl⟩ := List.getElem?_eq_some_iff.mp read
  exact Bool.eq_false_iff.mpr (before j less)

theorem FirstAt.any {i : Nat} (first : FirstAt ops map v i) :
    map.entryValues.any (ops.sameValue · v) = true := by
  obtain ⟨⟨x, read, same⟩, -⟩ := first
  exact List.any_eq_true.mpr ⟨x, List.mem_of_getElem? read, same⟩

theorem FirstAt.unique {i j : Nat} (first : FirstAt ops map v i) (second : FirstAt ops map v j) : i = j := by
  obtain ⟨⟨x, readX, sameX⟩, beforeX⟩ := first
  obtain ⟨⟨y, readY, sameY⟩, beforeY⟩ := second
  rcases Nat.lt_trichotomy i j with less | same | more
  · exact absurd ((beforeY i less x readX).symm.trans sameX) nofun
  · exact same
  · exact absurd ((beforeX j more y readY).symm.trans sameY) nofun

/-- The index of the first word that is `v` is that of the first value equal to `v` exactly if the latter
    is `v` itself. -/
theorem firstAt_iff {i : Nat} (reflexive : ∀ x, ops.sameValue x x = true)
    (place : map.entryValues.findIdx? (decide <| · = v) = some i) :
    FirstAt ops map v i ↔ FirstIsIdentical ops map v := by
  obtain ⟨below, same, before⟩ := List.findIdx?_eq_some_iff_getElem.mp place
  have same : map.entryValues[i] = v := of_decide_eq_true same
  have read : map.entryValues[i]? = some v := by rw [List.getElem?_eq_getElem below, same]
  constructor
  · intro first k x firstK readK
    obtain rfl := first.unique firstK
    exact Option.some.inj (readK.symm.trans read)
  · intro identical
    obtain ⟨k, first⟩ := exists_firstAt (List.any_eq_true.mpr
      ⟨v, List.mem_of_getElem? read, reflexive v⟩)
    obtain ⟨⟨x, readK, -⟩, -⟩ := id first
    obtain rfl := identical k x first readK
    -- neither index is before the other: both are the first of their kind
    rcases Nat.lt_trichotomy k i with less | equal | more
    · refine absurd ?_ (before k less)
      exact decide_eq_true (List.getElem?_eq_some_iff.mp readK).2
    · exact equal ▸ first
    · exact absurd ((first.2 i more x read).symm.trans (reflexive x)) nofun

/-- `HasValue` and `GetIndexOfValue` agree on `v` exactly if the first value that is `SameValue` to `v` is
    the same word. -/
theorem findsValue_iff (ops : MapOps α) (map : JSAPILightWeightMap α) (v : JSTaggedValue α)
    (inside : map.length ≤ map.values.length) (reflexive : ∀ x, ops.sameValue x x = true) :
    FindsValue ops map v ↔ FirstIsIdentical ops map v := by
  have has : map.hasValue ops v = some (map.entryValues.any (ops.sameValue · v)) := hasValue_eq inside
  have index := getIndexOfValue_eq (v := v) inside
  cases place : map.entryValues.findIdx? (decide <| · = v) with
  | some i =>
    rw [place] at index
    have found : map.entryValues.any (ops.sameValue · v) = true := by
      obtain ⟨below, same, -⟩ := List.findIdx?_eq_some_iff_getElem.mp place
      refine List.any_eq_true.mpr ⟨_, List.getElem_mem below, ?_⟩
      rw [of_decide_eq_true same]
      exact reflexive v
    rw [found] at has
    rw [← firstAt_iff reflexive place]
    constructor
    · rintro ⟨found', index', has', index'', -, first⟩
      obtain rfl := Option.some.inj (index.symm.trans index'')
      exact first (Int.natCast_nonneg i)
    · intro first
      exact ⟨true, i, has, index, by simp, fun _ => by simpa using first⟩
  | none =>
    rw [place] at index
    have absent := List.findIdx?_eq_none_iff.mp place
    constructor
    · rintro ⟨found, index', has', index'', agree, -⟩ i x first read
      obtain rfl := Option.some.inj (index.symm.trans index'')
      obtain rfl := Option.some.inj (has.symm.trans has')
      exact absurd (agree.mp first.any) (by decide)
    · intro identical
      have missing : map.entryValues.any (ops.sameValue · v) = false := by
        by_contra found
        obtain ⟨i, first⟩ := exists_firstAt (Bool.not_eq_false _ ▸ found)
        obtain ⟨⟨x, read, -⟩, -⟩ := id first
        obtain rfl := identical i x first read
        exact absurd (absent x (List.mem_of_getElem? read)) (by simp)
      rw [missing] at has
      exact ⟨false, -1, has, index, by decide, fun nonneg => absurd nonneg (by decide)⟩

/-! ## Strings -/

/-- A value of the language that is the Hole, `undefined`, an integer or an object of the heap. -/
def toKey : JSTaggedValue KeyHash.Address → KeyHash.TaggedKey
  | .hole => .special .hole
  | .undefined => .special .undefined
  | .int i => .int (Int32.ofInt i)
  | .ref a => .heapObject a

/-- `SameValue` over a heap. Every key has the hash zero. -/
def heapOps (heap : KeyHash.KeyHeap) : MapOps KeyHash.Address where
  hash _ := 0
  sameValue x y := KeyHash.sameValue heap (toKey x) (toKey y)

theorem reflexive_heapOps (heap : KeyHash.KeyHeap) (x : JSTaggedValue KeyHash.Address) :
    (heapOps heap).sameValue x x = true := if_pos rfl

/-- Two objects of the heap, by their addresses. -/
def firstString : KeyHash.Address := ⟨8, by decide, by decide⟩
def secondString : KeyHash.Address := ⟨16, by decide, by decide⟩

/-- Every object is the string "ab". -/
def stringHeap : KeyHash.KeyHeap := ⟨fun _ => .string ⟨[97, 98], true, false, 0⟩, 1⟩

/-- A map with three entries, in the middle of which the value is. -/
theorem findsValue_iff_same :
    ∃ map, (do
        let map ← set (heapOps stringHeap) construct (.int 1) (.int 5)
        let map ← set (heapOps stringHeap) map (.int 2) (.ref firstString)
        set (heapOps stringHeap) map (.int 3) .undefined) = some map ∧
      map.entryValues.length = 3 ∧ map.getIndexOfValue (.ref firstString) = some 1 ∧
      (map.length ≤ map.values.length ∧ ∀ x, (heapOps stringHeap).sameValue x x = true) ∧
      (FindsValue (heapOps stringHeap) map (.ref firstString) ↔
        FirstIsIdentical (heapOps stringHeap) map (.ref firstString)) :=
  ⟨_, rfl, rfl, rfl, ⟨by decide, reflexive_heapOps stringHeap⟩,
    findsValue_iff (heapOps stringHeap) _ (.ref firstString) (by decide) (reflexive_heapOps stringHeap)⟩

/-- A string is stored under the key 1, and another string of the same characters is looked for. -/
theorem getIndexOfValue_misses :
    ∃ map, set (heapOps stringHeap) construct (.int 1) (.ref firstString) = some map ∧
      map.hasValue (heapOps stringHeap) (.ref secondString) = some true ∧
      map.getIndexOfValue (.ref secondString) = some (-1) ∧
      ¬FindsValue (heapOps stringHeap) map (.ref secondString) := by
  refine ⟨⟨[.int 0] ++ .replicate 7 .hole, [.int 1] ++ .replicate 7 .hole,
    [.ref firstString] ++ .replicate 7 .hole, 1⟩, rfl, rfl, rfl, ?_⟩
  rintro ⟨found, index, has, read, agree, -⟩
  obtain rfl : true = found := Option.some.inj has
  obtain rfl : -1 = index := Option.some.inj read
  exact absurd (agree.mp rfl) (by decide)

end JSAPILightWeightMap

end ArkRuntime
