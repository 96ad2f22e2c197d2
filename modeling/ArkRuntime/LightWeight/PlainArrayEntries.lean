import ArkRuntime.LightWeight.PlainArray
import ArkRuntime.Misc.Entries

/-!
# The entries of a `PlainArray`

`JSAPIPlainArray` as a map from `int32_t` keys: what `Add`, `Remove`, `RemoveAt` and `RemoveRangeFrom` do to
its entries. `Add` needs a free slot unless it finds the key or comes to the end, and the sum of index and
batch size in `RemoveRangeFrom` can leave `int32_t`.
-/

namespace ArkRuntime

variable {α : Type}

namespace JSAPIPlainArray

variable {number : JSTaggedValue α → Int} {obj obj' : JSAPIPlainArray α}

/-- The slots in use, by the numbers of their keys. -/
def entries (number : JSTaggedValue α → Int) (obj : JSAPIPlainArray α) :
    List (Int × JSTaggedValue α) :=
  List.zipWith (fun key value => (number key, value)) (obj.keys.take obj.length)
    (obj.values.take obj.length)

/-- Both arrays have room for the entries, and the keys are strictly increasing. -/
structure Keyed (number : JSTaggedValue α → Int) (obj : JSAPIPlainArray α) : Prop where
  capacity : obj.keys.length = obj.values.length
  inside : obj.length ≤ obj.values.length
  increase : KeysIncrease (obj.entries number)

theorem keyed_construct : Keyed number (construct : JSAPIPlainArray α) :=
  ⟨rfl, Nat.zero_le _, List.Pairwise.nil⟩

/-! ## Slots and entries -/

section Slots

variable {a b : Slots α} {i n p : Nat}

theorem length_entries (capacity : obj.keys.length = obj.values.length)
    (inside : obj.length ≤ obj.values.length) : (obj.entries number).length = obj.length := by
  rw [entries, List.length_zipWith, List.length_take, List.length_take]
  omega

theorem Keyed.length (keyed : Keyed number obj) : (obj.entries number).length = obj.length :=
  length_entries keyed.capacity keyed.inside

theorem Keyed.slot (keyed : Keyed number obj) {e : Int × JSTaggedValue α}
    (here : (obj.entries number)[i]? = some e) :
    i < obj.length ∧ obj.values[i]? = some e.2 ∧ ∃ key, obj.keys[i]? = some key ∧ number key = e.1 := by
  have inside : i < obj.length := keyed.length ▸ (List.getElem?_eq_some_iff.mp here).1
  obtain ⟨key, value, first, second, rfl⟩ := List.getElem?_zipWith_eq_some.mp here
  rw [List.getElem?_take, if_pos inside] at first second
  exact ⟨inside, second, key, first, rfl⟩

theorem Keyed.entry (keyed : Keyed number obj) (inside : i < obj.length) :
    (obj.entries number)[i]? = some (number (obj.keys.getD i .hole), obj.values.getD i .hole) := by
  have capacity := keyed.capacity
  have room := keyed.inside
  refine List.getElem?_zipWith_eq_some.mpr ⟨obj.keys.getD i .hole, obj.values.getD i .hole, ?_, ?_, rfl⟩
  · rw [List.getElem?_take, if_pos inside, List.getD_eq_getElem?_getD,
      List.getElem?_eq_getElem (by omega)]
    rfl
  · rw [List.getElem?_take, if_pos inside, List.getD_eq_getElem?_getD,
      List.getElem?_eq_getElem (by omega)]
    rfl

/-- The key is found where it is, or the place at which it belongs. -/
theorem binarySearchKeys_spec (keyed : Keyed number obj) (key : Int) :
    ∃ r : Int, obj.binarySearchKeys number key = some r ∧
      ((∃ (i : Nat) (v : JSTaggedValue α), (obj.entries number)[i]? = some (key, v) ∧ r = i) ∨
        ∃ p ≤ obj.length, r = -((p : Int) + 1) ∧
          (∀ i < p, ∀ e, (obj.entries number)[i]? = some e → e.1 < key) ∧
          ∀ i, p ≤ i → ∀ e, (obj.entries number)[i]? = some e → key < e.1) := by
  have capacity := keyed.capacity
  have room := keyed.inside
  have reads : ∀ i < obj.length, obj.keys[i]?.map number =
      some (number (obj.keys.getD i .hole)) := by
    intro i below
    rw [List.getD_eq_getElem?_getD, List.getElem?_eq_getElem (by omega)]
    rfl
  have ascending : Ascending (fun i => number (obj.keys.getD i .hole)) obj.length := by
    intro i j le below
    rcases Nat.lt_or_eq_of_le le with less | rfl
    · have front := keyed.entry (i := i) (by omega)
      exact Int.le_of_lt (keyed.increase.lt less front (keyed.entry below))
    · exact Int.le_refl _
  obtain ⟨r, search, ⟨i, below, rfl, same⟩ | ⟨p, le, rfl, cuts⟩⟩ :=
    binarySearch_spec obj.length key reads
  · have here := keyed.entry below
    rw [show number (obj.keys.getD i .hole) = key from same] at here
    exact ⟨_, search, .inl ⟨i, _, here, rfl⟩⟩
  · obtain ⟨before, behind⟩ := cuts ascending
    refine ⟨_, search, .inr ⟨p, le, rfl, fun i less e here => ?_, fun i ge e here => ?_⟩⟩
    · rw [keyed.entry (by omega)] at here
      rw [← Option.some.inj here]
      exact before i less
    · have inside := (keyed.slot here).1
      rw [keyed.entry inside] at here
      rw [← Option.some.inj here]
      exact behind i ge inside

/-- The slots in use after a free one at the end was written, or all behind `p` moved up before. -/
theorem makeRoom_spec (place : p ≤ obj.length) (inside : obj.length ≤ a.length)
    (room : obj.length < a.length ∨ p = obj.length) :
    ∃ a', obj.makeRoom a p = some a' ∧ a'.length = a.length ∧
      ∀ b : Slots α, obj.length < b.length → (∀ m ≤ a.length, b.take m = a'.take m) → ∀ x,
        (b.set p x).take (obj.length + 1) = (a.take obj.length).insertIdx p x := by
  have atEnd : ∀ b : Slots α, obj.length < b.length → ∀ x,
      (b.set obj.length x).take (obj.length + 1) = (b.take obj.length).insertIdx obj.length x := by
    intro b free x
    obtain ⟨b', run, -, slots⟩ := Slots.shiftUp_insert (a := b) (Nat.le_refl obj.length) free
    rw [Nat.sub_self] at run
    rw [← slots x, ← Option.some.inj run]
  by_cases less : p < obj.length
  · have inside : obj.length < a.length := room.resolve_right (by omega)
    obtain ⟨a', run, length, slots⟩ := Slots.shiftUp_insert place inside
    refine ⟨a', by rw [makeRoom, if_pos less]; exact run, length, fun b _ grown x => ?_⟩
    rw [List.take_set, grown _ inside, ← List.take_set, slots]
  · obtain rfl : p = obj.length := by omega
    refine ⟨a, by rw [makeRoom, if_neg less], rfl, fun b free grown x => ?_⟩
    rw [atEnd b free, grown _ inside]

theorem expand_spec {k v : Slots α} (same : k.length = v.length) (inside : n ≤ v.length)
    (room : n < v.length ∨ 0 < n) :
    ∃ k' v', expand k v n = some (k', v') ∧ n < v'.length ∧ k'.length = v'.length ∧
      (∀ m ≤ k.length, k'.take m = k.take m) ∧ ∀ m ≤ v.length, v'.take m = v.take m := by
  by_cases full : v.length ≤ n + 1
  · have double : v.length <<< 1 = 2 * v.length := by rw [Nat.shiftLeft_eq]; omega
    obtain ⟨k', copied, length, front⟩ := Slots.copyArray_longer (a := k)
      (show v.length < 2 * v.length by omega) (by omega)
    obtain ⟨v', copied', length', front'⟩ := Slots.copyArray_longer (a := v)
      (show v.length < 2 * v.length by omega) (by omega)
    refine ⟨k', v', ?_, by omega, by omega, front, front'⟩
    simp only [expand, full, if_true, double, copied, copied', Option.bind_eq_bind, Option.bind_some]
    rfl
  · exact ⟨k, v, if_neg full, by omega, same, fun _ _ => rfl, fun _ _ => rfl⟩

/-- The slots in use when a range of them is cut out. -/
theorem adjustPrimitiveArray_spec (range : i + n ≤ obj.length) (inside : obj.length ≤ a.length) :
    ∃ a', obj.adjustPrimitiveArray a (i + n) i = some a' ∧ a'.length = a.length ∧
      a'.take (obj.length - n) = (a.take obj.length).take i ++ (a.take obj.length).drop (i + n) := by
  obtain ⟨b, copied, length, moved⟩ :=
    copyDown_spec (obj.length - (i + n)) (i + n) i a (by omega) (by omega)
  obtain ⟨a', filled, length', kept⟩ :=
    fill_spec .hole (i + n - i) (i + (obj.length - (i + n))) b (by omega)
  refine ⟨a', ?_, by omega, ?_⟩
  · simp only [adjustPrimitiveArray, copied, Option.bind_eq_bind, Option.bind_some]
    exact filled
  · apply List.ext_getElem?
    intro j
    rw [List.getElem?_take, List.getElem?_append, List.length_take, List.length_take]
    by_cases used : j < obj.length - n
    · rw [if_pos used, kept j (by omega), moved j]
      by_cases front : j < i
      · rw [if_neg (by omega), if_pos (by omega), List.getElem?_take, if_pos front,
          List.getElem?_take, if_pos (by omega)]
      · rw [if_pos (by omega), if_neg (by omega), List.getElem?_drop, List.getElem?_take,
          if_pos (by omega)]
        congr 1
        omega
    · rw [if_neg used, if_neg (by omega), List.getElem?_drop, List.getElem?_take, if_neg (by omega)]

end Slots

/-! ## The operations -/

section Operations

variable {i n p : Nat} {key value u : JSTaggedValue α}

/-- The place `p` cuts the entries below a key from those above it. -/
structure CutsAt (number : JSTaggedValue α → Int) (obj : JSAPIPlainArray α) (k : Int) (p : Nat) :
    Prop where
  place : p ≤ obj.length
  before : ∀ i < p, ∀ e, (obj.entries number)[i]? = some e → e.1 < k
  behind : ∀ i, p ≤ i → ∀ e, (obj.entries number)[i]? = some e → k < e.1

theorem search_present (keyed : Keyed number obj) {k : Int}
    (here : (obj.entries number)[i]? = some (k, u)) :
    obj.binarySearchKeys number k = some (i : Int) := by
  obtain ⟨r, search, ⟨j, v, there, rfl⟩ | ⟨p, -, -, before, behind⟩⟩ := binarySearchKeys_spec keyed k
  · rw [search, keyed.increase.place_unique there here]
  · rcases Nat.lt_or_ge i p with less | ge
    · exact absurd (before i less _ here) (lt_irrefl k)
    · exact absurd (behind i ge _ here) (lt_irrefl k)

theorem search_absent (keyed : Keyed number obj) {k : Int}
    (absent : (obj.entries number).lookup k = none) :
    ∃ p : Nat, obj.binarySearchKeys number k = some (-((p : Int) + 1)) ∧ CutsAt number obj k p := by
  obtain ⟨r, search, ⟨i, v, here, -⟩ | ⟨p, place, rfl, before, behind⟩⟩ :=
    binarySearchKeys_spec keyed k
  · rw [keyed.increase.lookup_eq here] at absent
    cases absent
  · exact ⟨p, search, place, before, behind⟩

theorem add_present (keyed : Keyed number obj) (value : JSTaggedValue α)
    (here : (obj.entries number)[i]? = some (number key, u)) :
    ∃ obj', obj.add number key value = some obj' ∧ Keyed number obj' ∧ obj'.length = obj.length ∧
      obj'.entries number = (obj.entries number).set i (number key, value) := by
  have capacity := keyed.capacity
  have room := keyed.inside
  have inside := (keyed.slot here).1
  have entries' : (⟨obj.keys.set i key, obj.values.set i value, obj.length⟩ :
      JSAPIPlainArray α).entries number = (obj.entries number).set i (number key, value) := by
    simp only [entries, List.take_set]
    exact zipWith_set key value
  refine ⟨⟨obj.keys.set i key, obj.values.set i value, obj.length⟩, ?_, ⟨?_, ?_, ?_⟩, rfl, entries'⟩
  · simp only [add, search_present keyed here, Option.bind_eq_bind, Option.bind_some, Int.toNat_natCast]
    rw [if_pos (by omega), store_of_lt (by omega), Option.bind_some, store_of_lt (by omega)]
    rfl
  · simp only [List.length_set]
    exact capacity
  · simp only [List.length_set]
    exact room
  · rw [entries']
    exact (keyed.increase.set here).1

/-- The index that `Add` makes of the result of an unsuccessful search. -/
theorem toNat_complement (p : Nat) : (-(-((p : Int) + 1)) - 1).toNat = p := by omega

/-- `Add` of a new key, with a free slot or at the end. -/
theorem add_absent (keyed : Keyed number obj) (value : JSTaggedValue α)
    (search : obj.binarySearchKeys number (number key) = some (-((p : Int) + 1)))
    (cuts : CutsAt number obj (number key) p)
    (room : obj.length < obj.values.length ∨ p = obj.length ∧ 0 < obj.length) :
    ∃ obj', obj.add number key value = some obj' ∧ Keyed number obj' ∧
      obj'.entries number = (obj.entries number).insertIdx p (number key, value) := by
  have capacity := keyed.capacity
  have inside := keyed.inside
  have place := cuts.place
  obtain ⟨k, moved, kLength, kSlots⟩ := makeRoom_spec (a := obj.keys) place (by omega) (by omega)
  obtain ⟨v, moved', vLength, vSlots⟩ := makeRoom_spec (a := obj.values) place inside (by omega)
  obtain ⟨k', v', expanded, free, same, kGrown, vGrown⟩ := expand_spec (k := k) (v := v)
    (n := obj.length) (by omega) (by omega) (by omega)
  have entries' : (⟨k'.set p key, v'.set p value, obj.length + 1⟩ : JSAPIPlainArray α).entries number =
      (obj.entries number).insertIdx p (number key, value) := by
    simp only [entries]
    rw [kSlots k' (by omega) (kLength ▸ kGrown) key, vSlots v' free (vLength ▸ vGrown) value]
    exact zipWith_insertIdx (by simp; omega) (by simp; omega) key value
  refine ⟨⟨k'.set p key, v'.set p value, obj.length + 1⟩, ?_, ⟨?_, ?_, ?_⟩, entries'⟩
  · simp only [add, search, Option.bind_eq_bind, Option.bind_some, toNat_complement, moved, moved',
      expanded]
    rw [if_neg (by omega), store_of_lt (by omega), Option.bind_some, store_of_lt (by omega)]
    rfl
  · simp only [List.length_set]
    exact same
  · simp only [List.length_set]
    exact free
  · rw [entries']
    exact (keyed.increase.insertIdx (keyed.length ▸ place) cuts.before cuts.behind).1

/-- Without a free slot `Add` of a new key reaches outside the arrays, unless the key comes last and the
    capacity can be doubled. -/
theorem add_full (keyed : Keyed number obj) (value : JSTaggedValue α)
    (search : obj.binarySearchKeys number (number key) = some (-((p : Int) + 1)))
    (cuts : CutsAt number obj (number key) p) (full : obj.length = obj.values.length)
    (notLast : ¬ (p = obj.length ∧ 0 < obj.length)) : obj.add number key value = none := by
  have capacity := keyed.capacity
  have place := cuts.place
  by_cases less : p < obj.length
  · have stuck : obj.makeRoom obj.keys p = none := by
      obtain ⟨n, rounds⟩ : ∃ n, obj.length - p = n + 1 := ⟨obj.length - p - 1, by omega⟩
      have outside : ¬ obj.length - 1 + 1 < obj.keys.length := by omega
      have last : obj.keys[obj.length - 1]? = some (obj.keys.getD (obj.length - 1) .hole) := by
        rw [List.getD_eq_getElem?_getD, List.getElem?_eq_getElem (by omega)]
        rfl
      simp only [makeRoom, less, if_true, adjustArray, rounds, shiftUp, last, Option.bind_eq_bind,
        Option.bind_some, store, outside, if_false, Option.bind_none]
    simp only [add, search, Option.bind_eq_bind, Option.bind_some, toNat_complement, stuck,
      Option.bind_none]
    exact if_neg (by omega)
  · have empty : obj.length = 0 := by omega
    obtain rfl : p = 0 := by omega
    have keys : obj.keys = [] := List.length_eq_zero_iff.mp (by omega)
    have values : obj.values = [] := List.length_eq_zero_iff.mp (by omega)
    simp only [add, search, Option.bind_eq_bind, Option.bind_some, toNat_complement, makeRoom, empty,
      keys, values]
    rw [if_neg (by omega)]
    rfl

/-- A range of entries is cut out. -/
theorem adjustForward_spec (keyed : Keyed number obj) (range : i + n ≤ obj.length) :
    ∃ obj', obj.adjustForward i n = some obj' ∧ Keyed number obj' ∧
      obj'.entries number = (obj.entries number).take i ++ (obj.entries number).drop (i + n) := by
  have capacity := keyed.capacity
  have inside := keyed.inside
  obtain ⟨k, moved, kLength, kSlots⟩ := adjustPrimitiveArray_spec (a := obj.keys) range (by omega)
  obtain ⟨v, moved', vLength, vSlots⟩ := adjustPrimitiveArray_spec (a := obj.values) range inside
  have entries' : (⟨k, v, obj.length - n⟩ : JSAPIPlainArray α).entries number =
      (obj.entries number).take i ++ (obj.entries number).drop (i + n) := by
    simp only [entries, kSlots, vSlots]
    exact zipWith_cut (by simp; omega)
  refine ⟨⟨k, v, obj.length - n⟩, ?_, ⟨by simp only; omega, by simp only; omega, ?_⟩, entries'⟩
  · simp only [adjustForward, adjustArray, moved, moved', Option.bind_eq_bind, Option.bind_some,
      Bool.false_eq_true, if_false]
    rfl
  · rw [entries']
    refine keyed.increase.sublist ?_
    conv_rhs => rw [← List.take_append_drop i (obj.entries number)]
    rw [← List.drop_drop]
    exact (List.Sublist.refl _).append (List.drop_sublist n _)

/-- `Add` keeps the keys strictly increasing and updates the map at the key. -/
def AddUpdates (number : JSTaggedValue α → Int) (obj : JSAPIPlainArray α)
    (key value : JSTaggedValue α) : Prop :=
  ∃ obj', obj.add number key value = some obj' ∧ Keyed number obj' ∧
    ∀ k, (obj'.entries number).lookup k =
      if k = number key then some value else (obj.entries number).lookup k

/-- `Remove` deletes the entry of the key and returns its value, or finds none. -/
def RemovesKey (number : JSTaggedValue α → Int) (obj : JSAPIPlainArray α) (key : JSTaggedValue α) :
    Prop :=
  ∃ obj' x, obj.remove number key = some (obj', x) ∧ Keyed number obj' ∧
    ((∃ i : Nat, (obj.entries number)[i]? = some (number key, x) ∧
        obj'.entries number = (obj.entries number).eraseIdx i) ∨
      ((obj.entries number).lookup (number key) = none ∧ obj' = obj ∧ x = .undefined))

/-- `RemoveAt` deletes the entry at the index and returns its value, or there is none. -/
def RemovesSeat (number : JSTaggedValue α → Int) (obj : JSAPIPlainArray α) (seat : Int) : Prop :=
  ∃ obj' x, obj.removeAt seat = some (obj', x) ∧ Keyed number obj' ∧
    ((∃ (i : Nat) (k : Int), seat = i ∧ (obj.entries number)[i]? = some (k, x) ∧
        obj'.entries number = (obj.entries number).eraseIdx i) ∨
      ((seat < 0 ∨ (obj.length : Int) ≤ seat) ∧ obj' = obj ∧ x = .undefined))

/-- `RemoveRangeFrom` throws and changes nothing, or it adds without overflow and deletes as many entries
    from the index on as the batch size says and the array has. -/
def RemovesRange (number : JSTaggedValue α → Int) (obj : JSAPIPlainArray α) (index batchSize : Int32) :
    Prop :=
  ∃ obj' r, obj.removeRangeFrom index batchSize = some (obj', r) ∧ Keyed number obj' ∧
    ((∃ error, r = .error error ∧ obj' = obj) ∨
      ∃ i n : Nat, index.toInt = i ∧ r = .ok (n : Int) ∧ index.toInt + batchSize.toInt < 2 ^ 31 ∧
        (n : Int) = min batchSize.toInt (obj.length - index.toInt) ∧
        obj'.entries number = (obj.entries number).take i ++ (obj.entries number).drop (i + n))

theorem addUpdates_iff (keyed : Keyed number obj) (key value : JSTaggedValue α) :
    AddUpdates number obj key value ↔
      (obj.entries number).lookup (number key) ≠ none ∨ obj.length < obj.values.length ∨
        (0 < obj.length ∧ ∀ e ∈ obj.entries number, e.1 < number key) := by
  cases found : (obj.entries number).lookup (number key) with
  | some u =>
    refine iff_of_true ?_ (.inl (by simp))
    obtain ⟨i, here⟩ := KeysIncrease.getElem?_of_lookup found
    obtain ⟨obj', run, keyed', -, entries'⟩ := add_present keyed value here
    refine ⟨obj', run, keyed', fun k => ?_⟩
    rw [entries']
    exact (keyed.increase.set here).2 k
  | none =>
    obtain ⟨p, search, cuts⟩ := search_absent keyed found
    have last : p = obj.length ↔ ∀ e ∈ obj.entries number, e.1 < number key := by
      refine ⟨fun atEnd e mem => ?_, fun below => ?_⟩
      · obtain ⟨i, here⟩ := List.getElem?_of_mem mem
        exact cuts.before i (atEnd ▸ (keyed.slot here).1) e here
      · by_contra notEnd
        have inside : p < obj.length := Nat.lt_of_le_of_ne cuts.place notEnd
        have here := keyed.entry inside
        exact lt_asymm (below _ (List.mem_of_getElem? here)) (cuts.behind p (Nat.le_refl p) _ here)
    by_cases room : obj.length < obj.values.length ∨ p = obj.length ∧ 0 < obj.length
    · refine iff_of_true ?_ (.inr (room.imp_right fun r => ⟨r.2, last.mp r.1⟩))
      obtain ⟨obj', run, keyed', entries'⟩ := add_absent keyed value search cuts room
      refine ⟨obj', run, keyed', fun k => ?_⟩
      rw [entries']
      exact (keyed.increase.insertIdx (keyed.length ▸ cuts.place) cuts.before cuts.behind).2 k
    · rw [not_or] at room
      have full : obj.length = obj.values.length :=
        Nat.le_antisymm keyed.inside (Nat.not_lt.mp room.1)
      refine iff_of_false ?_ ?_
      · rintro ⟨obj', run, -⟩
        rw [add_full keyed value search cuts full room.2] at run
        cases run
      · rintro (present | free | ⟨some, below⟩)
        · exact present rfl
        · exact room.1 free
        · exact room.2 ⟨last.mpr below, some⟩

/-- An `Add` that stays inside the arrays is right. -/
theorem add_updates (keyed : Keyed number obj) (added : obj.add number key value = some obj') :
    Keyed number obj' ∧ ∀ k, (obj'.entries number).lookup k =
      if k = number key then some value else (obj.entries number).lookup k := by
  cases found : (obj.entries number).lookup (number key) with
  | some u =>
    obtain ⟨after, run, keyed', updated⟩ := (addUpdates_iff keyed key value).mpr (.inl (by simp [found]))
    rw [added] at run
    obtain rfl := Option.some.inj run
    exact ⟨keyed', updated⟩
  | none =>
    obtain ⟨p, search, cuts⟩ := search_absent keyed found
    by_cases room : obj.length < obj.values.length ∨ p = obj.length ∧ 0 < obj.length
    · obtain ⟨after, run, keyed', entries'⟩ := add_absent keyed value search cuts room
      rw [added] at run
      obtain rfl := Option.some.inj run
      refine ⟨keyed', fun k => ?_⟩
      rw [entries']
      exact (keyed.increase.insertIdx (keyed.length ▸ cuts.place) cuts.before cuts.behind).2 k
    · rw [not_or] at room
      rw [add_full keyed value search cuts
        (Nat.le_antisymm keyed.inside (Nat.not_lt.mp room.1)) room.2] at added
      cases added

theorem adjustForward_one (keyed : Keyed number obj) (inside : i < obj.length) :
    ∃ obj', obj.adjustForward i 1 = some obj' ∧ Keyed number obj' ∧
      obj'.entries number = (obj.entries number).eraseIdx i := by
  obtain ⟨obj', run, keyed', entries'⟩ := adjustForward_spec keyed (n := 1) inside
  exact ⟨obj', run, keyed', entries'.trans (List.eraseIdx_eq_take_drop_succ _ i).symm⟩

theorem removesKey (keyed : Keyed number obj) (key : JSTaggedValue α) :
    RemovesKey number obj key := by
  cases found : (obj.entries number).lookup (number key) with
  | some x =>
    obtain ⟨i, here⟩ := KeysIncrease.getElem?_of_lookup found
    obtain ⟨inside, value, -⟩ := keyed.slot here
    obtain ⟨obj', run, keyed', entries'⟩ := adjustForward_one keyed inside
    refine ⟨obj', x, ?_, keyed', .inl ⟨i, here, entries'⟩⟩
    simp only [remove, search_present keyed here, Option.bind_eq_bind, Option.bind_some,
      Int.toNat_natCast]
    rw [if_neg (by omega), value, Option.bind_some, run]
    rfl
  | none =>
    obtain ⟨p, search, -⟩ := search_absent keyed found
    refine ⟨obj, .undefined, ?_, keyed, .inr ⟨found, rfl, rfl⟩⟩
    simp only [remove, search, Option.bind_eq_bind, Option.bind_some]
    exact if_pos (by omega)

theorem removesSeat (keyed : Keyed number obj) (seat : Int) : RemovesSeat number obj seat := by
  by_cases outside : seat < 0 ∨ (obj.length : Int) ≤ seat
  · exact ⟨obj, .undefined, if_pos outside, keyed, .inr ⟨outside, rfl, rfl⟩⟩
  · obtain ⟨i, rfl⟩ := Int.eq_ofNat_of_zero_le (show 0 ≤ seat by omega)
    have inside : i < obj.length := by omega
    have here := keyed.entry inside
    obtain ⟨-, value, -⟩ := keyed.slot here
    obtain ⟨obj', run, keyed', entries'⟩ := adjustForward_one keyed inside
    refine ⟨obj', _, ?_, keyed', .inl ⟨i, _, rfl, here, entries'⟩⟩
    simp only [removeAt, outside, if_false, Int.toNat_natCast, value, Option.bind_eq_bind,
      Option.bind_some, run]
    rfl

theorem removeRangeFrom_spec (keyed : Keyed number obj) {index batchSize : Int32}
    (low : 0 ≤ index.toInt) (high : index.toInt < int32 obj.length) (batch : 1 ≤ batchSize.toInt)
    (defined : obj.RangeDefined index batchSize) :
    ∃ (obj' : JSAPIPlainArray α) (i n : Nat), index.toInt = i ∧
      obj.removeRangeFrom index batchSize = some (obj', .ok (n : Int)) ∧ Keyed number obj' ∧
      (n : Int) = min batchSize.toInt (int32 obj.length - index.toInt) ∧
      obj'.entries number = (obj.entries number).take i ++ (obj.entries number).drop (i + n) := by
  have le := int32_le obj.length
  obtain ⟨i, index_eq⟩ := Int.eq_ofNat_of_zero_le low
  obtain ⟨n, count⟩ := Int.eq_ofNat_of_zero_le
    (show 0 ≤ min batchSize.toInt (int32 obj.length - index.toInt) by omega)
  obtain ⟨obj', run, keyed', entries'⟩ := adjustForward_spec keyed (show i + n ≤ obj.length by omega)
  refine ⟨obj', i, n, index_eq, ?_, keyed', count.symm, entries'⟩
  rw [removeRangeFrom]
  simp only
  rw [if_neg (by omega), if_neg (by omega), defined.fits (by omega) (by omega), Option.bind_eq_bind, Option.bind_some]
  have safeSize : (if int32 obj.length - (index.toInt + batchSize.toInt) < 0 then
      int32 obj.length - index.toInt else batchSize.toInt) = n := by
    split_ifs <;> omega
  rw [safeSize, index_eq]
  simp only [Int.toNat_natCast, run]
  rfl

/-- The length is a `uint32_t`: where it is positive as an `int32_t`, it is itself. -/
theorem int32_length (word : obj.length < 2 ^ 32) (positive : 0 < int32 obj.length) :
    int32 obj.length = obj.length := by
  rw [int32, Int.bmod_def] at positive ⊢
  split_ifs at positive ⊢ <;> omega

theorem removesRange_iff (keyed : Keyed number obj) (word : obj.length < 2 ^ 32)
    (index batchSize : Int32) :
    RemovesRange number obj index batchSize ↔
      index.toInt < 0 ∨ int32 obj.length ≤ index.toInt ∨ batchSize.toInt < 1 ∨
        index.toInt + batchSize.toInt < 2 ^ 31 := by
  by_cases outside : index.toInt < 0 ∨ int32 obj.length ≤ index.toInt
  · refine iff_of_true ⟨obj, _, if_pos outside, keyed, .inl ⟨_, rfl, rfl⟩⟩ ?_
    omega
  by_cases batch : batchSize.toInt < 1
  · refine iff_of_true
      ⟨obj, _, (if_neg outside).trans (if_pos batch), keyed, .inl ⟨_, rfl, rfl⟩⟩ ?_
    omega
  by_cases defined : obj.RangeDefined index batchSize
  · refine iff_of_true ?_ defined
    obtain ⟨obj', i, n, index_eq, run, keyed', count, entries'⟩ :=
      removeRangeFrom_spec keyed (show 0 ≤ index.toInt by omega) (by omega)
        (show 1 ≤ batchSize.toInt by omega) defined
    rw [int32_length word (by omega)] at count
    unfold RangeDefined at defined
    exact ⟨obj', _, run, keyed', .inr ⟨i, n, index_eq, rfl, by omega, count, entries'⟩⟩
  · refine iff_of_false ?_ defined
    rintro ⟨obj', r, run, -⟩
    rw [removeRangeFrom_overflow defined] at run
    cases run

theorem clear_spec (keyed : Keyed number obj) : ∃ obj', obj.clear = some obj' ∧ Keyed number obj' := by
  have capacity := keyed.capacity
  have inside := keyed.inside
  obtain ⟨k, filled, kLength, -⟩ := fill_spec .hole obj.length 0 obj.keys (by omega)
  obtain ⟨v, filled', vLength, -⟩ := fill_spec .hole obj.length 0 obj.values (by omega)
  refine ⟨⟨k, v, 0⟩, ?_, by simp only; omega, Nat.zero_le _, List.Pairwise.nil⟩
  simp only [clear, filled, filled', Option.bind_eq_bind, Option.bind_some]
  rfl

/-- A clone has the entries, and no more slots than these. -/
theorem clone_spec (keyed : Keyed number obj) :
    ∃ obj', obj.clone = some obj' ∧ Keyed number obj' ∧ obj'.entries number = obj.entries number ∧
      obj'.length = obj'.values.length := by
  have capacity := keyed.capacity
  have inside := keyed.inside
  have copy : ∀ a : Slots α, obj.length ≤ a.length →
      a.newAndCopyTaggedArray obj.length obj.length = some (a.take obj.length) := by
    intro a le
    rw [Slots.newAndCopyTaggedArray, if_pos ⟨le, Nat.le_refl _⟩, Nat.sub_self, List.replicate_zero,
      List.append_nil]
  have entries' : (⟨obj.keys.take obj.length, obj.values.take obj.length, obj.length⟩ :
      JSAPIPlainArray α).entries number = obj.entries number := by
    simp only [entries, List.take_take, Nat.min_self]
  refine ⟨⟨obj.keys.take obj.length, obj.values.take obj.length, obj.length⟩, ?_, ⟨?_, ?_, ?_⟩, entries',
    ?_⟩
  · simp only [clone, copy _ inside, copy obj.keys (by omega), Option.bind_eq_bind, Option.bind_some]
    rfl
  · simp only [List.length_take]
    omega
  · simp only [List.length_take]
    omega
  · exact entries' ▸ keyed.increase
  · simp only [List.length_take]
    omega

/-- An operation that stays inside the arrays keeps the keys strictly increasing. -/
theorem keyed_step (keyed : Keyed number obj) {o : Op α} (stays : obj.step number o = some obj') :
    Keyed number obj' := by
  cases o with
  | add key value => exact (add_updates keyed stays).1
  | remove key =>
    obtain ⟨after, x, run, keyed', -⟩ := removesKey keyed key
    rw [step, run] at stays
    exact Option.some.inj stays ▸ keyed'
  | removeAt seat =>
    obtain ⟨after, x, run, keyed', -⟩ := removesSeat keyed seat
    rw [step, run] at stays
    exact Option.some.inj stays ▸ keyed'
  | removeRangeFrom index batchSize =>
    by_cases outside : index.toInt < 0 ∨ int32 obj.length ≤ index.toInt
    · rw [step, removeRangeFrom, if_pos outside] at stays
      exact Option.some.inj stays ▸ keyed
    by_cases batch : batchSize.toInt < 1
    · rw [step, removeRangeFrom, if_neg outside, if_pos batch] at stays
      exact Option.some.inj stays ▸ keyed
    by_cases defined : obj.RangeDefined index batchSize
    swap
    · rw [step, removeRangeFrom_overflow defined] at stays
      cases stays
    obtain ⟨after, i, n, -, run, keyed', -⟩ :=
      removeRangeFrom_spec keyed (show 0 ≤ index.toInt by omega) (by omega)
        (show 1 ≤ batchSize.toInt by omega) defined
    rw [step, run] at stays
    exact Option.some.inj stays ▸ keyed'
  | clear =>
    obtain ⟨after, run, keyed'⟩ := clear_spec keyed
    rw [step, run] at stays
    exact Option.some.inj stays ▸ keyed'
  | clone =>
    obtain ⟨after, run, keyed', -⟩ := clone_spec keyed
    rw [step, run] at stays
    exact Option.some.inj stays ▸ keyed'

theorem keyed_of_run {start : JSAPIPlainArray α} (keyed : Keyed number start) (operations : List (Op α))
    (reached : run (step number) start operations = some obj) : Keyed number obj := by
  induction operations generalizing start with
  | nil => exact Option.some.inj reached ▸ keyed
  | cons o operations ih =>
    obtain ⟨next, stays, rest⟩ := Option.bind_eq_some_iff.mp
      (show (step number start o).bind _ = some obj from reached)
    exact ih (keyed_step keyed stays) rest

end Operations

/-- What the operations do to an array with strictly increasing keys. -/
theorem plainArray_updates_iff (keyed : Keyed number obj) (word : obj.length < 2 ^ 32)
    (key value : JSTaggedValue α) (seat : Int) (index batchSize : Int32) :
    (AddUpdates number obj key value ↔
        (obj.entries number).lookup (number key) ≠ none ∨ obj.length < obj.values.length ∨
          (0 < obj.length ∧ ∀ e ∈ obj.entries number, e.1 < number key)) ∧
      RemovesKey number obj key ∧ RemovesSeat number obj seat ∧
      (RemovesRange number obj index batchSize ↔
        index.toInt < 0 ∨ int32 obj.length ≤ index.toInt ∨ batchSize.toInt < 1 ∨
          index.toInt + batchSize.toInt < 2 ^ 31) :=
  ⟨addUpdates_iff keyed key value, removesKey keyed key, removesSeat keyed seat,
    removesRange_iff keyed word index batchSize⟩

/-- The keys 5 and 9, and six free slots. -/
def fiveAndNine : JSAPIPlainArray Unit :=
  ⟨[.int 5, .int 9] ++ List.replicate 6 .hole, [.int 7, .int 8] ++ List.replicate 6 .hole, 2⟩

theorem run_fiveAndNine : run (step JSTaggedValue.getInt) construct
    [.add (.int 5) (.int 7), .add (.int 9) (.int 8)] = some fiveAndNine := rfl

theorem keyed_fiveAndNine : Keyed JSTaggedValue.getInt fiveAndNine :=
  keyed_of_run keyed_construct _ run_fiveAndNine

/-- A new key in front has a place, and a range to the end and beyond is removed. -/
theorem plainArray_updates_iff_fiveAndNine :
    AddUpdates JSTaggedValue.getInt fiveAndNine (.int 3) (.int 6) ∧
      RemovesKey JSTaggedValue.getInt fiveAndNine (.int 3) ∧
      RemovesSeat JSTaggedValue.getInt fiveAndNine 1 ∧
      RemovesRange JSTaggedValue.getInt fiveAndNine 1 4 := by
  obtain ⟨adds, key, seat, range⟩ :=
    plainArray_updates_iff keyed_fiveAndNine (by decide) (.int 3) (.int 6) 1 1 4
  exact ⟨adds.mpr (.inr (.inl (by decide))), key, seat, range.mpr (by decide)⟩

/-- With two entries, index 1 and the greatest batch size, the sum is one too large. A clone of the array has
    no place for a key in front. -/
theorem plainArray_updates_fails :
    Keyed JSTaggedValue.getInt fiveAndNine ∧
      ¬ RemovesRange JSTaggedValue.getInt fiveAndNine 1 2147483647 ∧
      ∃ copy, fiveAndNine.clone = some copy ∧ Keyed JSTaggedValue.getInt copy ∧
        ¬ AddUpdates JSTaggedValue.getInt copy (.int 3) (.int 6) := by
  refine ⟨keyed_fiveAndNine, fun removes => ?_, _, rfl,
    keyed_step keyed_fiveAndNine (o := .clone) rfl, ?_⟩
  · exact absurd ((removesRange_iff keyed_fiveAndNine (by decide) 1 2147483647).mp removes) (by decide)
  · rintro ⟨after, added, -⟩
    cases added

end JSAPIPlainArray

end ArkRuntime
