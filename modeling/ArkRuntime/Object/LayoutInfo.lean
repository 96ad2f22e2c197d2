import ArkRuntime.Misc.BinarySearch
import ArkRuntime.Misc.BitField
import ArkRuntime.Misc.SlotArray
import Mathlib.Data.List.Basic

/-!
# Layouts of objects

`LayoutInfo` (`ecmascript/layout_info-inl.h`): the keys of an object's properties with their attributes. The
keys stand in the order in which they were added; the order by hash codes is kept in a field of the
attributes, where the word of the `i`-th property tells which key is the `i`-th one by hash. A class may see
only the first properties of a layout that it shares with other classes.

`GetKeyHashCode` is an arbitrary function on the keys. Reading or writing outside of the array, a hash code
of the hole and a failed assertion of `AddKey` are `none`.
-/

namespace ArkRuntime

/-! ## `PropertyAttributes` -/

namespace PropertyAttributes

def offsetField : BitField := ⟨7, 10⟩

def normalAttrField : BitField := ⟨0, 28⟩

def sortedIndexField : BitField := ⟨28, 10⟩

def getOffset (value : BitVec 64) : Nat := offsetField.get value

def getSortedIndex (value : BitVec 64) : Nat := sortedIndexField.get value

def setSortedIndex (sortedIndex : Nat) (value : BitVec 64) : BitVec 64 := sortedIndexField.set sortedIndex value

def getNormalTagged (value : BitVec 64) : BitVec 64 := BitVec.ofNat 64 (normalAttrField.get value)

theorem getOffset_lt (value : BitVec 64) : getOffset value < 1024 := offsetField.get_lt value

theorem getSortedIndex_setSortedIndex {sortedIndex : Nat} (fits : sortedIndex < 1024) (value : BitVec 64) :
    getSortedIndex (setSortedIndex sortedIndex value) = sortedIndex :=
  sortedIndexField.get_set fits (by decide) value

end PropertyAttributes

/-- A property of a layout; the key `none` is the hole. -/
structure Properties (κ : Type) where
  key : Option κ
  attr : BitVec 64
deriving DecidableEq, Repr

structure LayoutInfo (κ : Type) where
  properties : List (Properties κ)
  extraLength : Nat
deriving DecidableEq, Repr

namespace LayoutInfo

variable {κ : Type} [DecidableEq κ] (hash : κ → BitVec 32) (layout : LayoutInfo κ)

/-! ## The code -/

def getPropertiesCapacity : Nat := layout.properties.length

def numberOfElements : Nat := layout.extraLength

def setNumberOfElements (properties : Nat) : LayoutInfo κ := { layout with extraLength := properties }

/-- A new layout after `Initialize`. -/
def initialized (capacity : Nat) : LayoutInfo κ := ⟨List.replicate capacity ⟨none, 0⟩, 0⟩

def setPropertyInit (index : Nat) (key : κ) (attr : BitVec 64) : Option (LayoutInfo κ) := do
  let properties ← store layout.properties index ⟨some key, PropertyAttributes.getNormalTagged attr⟩
  return { layout with properties }

def getKey (index : Nat) : Option κ := do (← layout.properties[index]?).key

def getAttr (index : Nat) : Option (BitVec 64) := (layout.properties[index]?).map (·.attr)

def getSortedIndex (index : Nat) : Option Nat := (layout.getAttr index).map PropertyAttributes.getSortedIndex

def getSortedKey (index : Nat) : Option κ := do layout.getKey (← layout.getSortedIndex index)

def setSortedIndex (index sortedIndex : Nat) : Option (LayoutInfo κ) := do
  let p ← layout.properties[index]?
  let attr := PropertyAttributes.setSortedIndex sortedIndex p.attr
  let properties ← store layout.properties index { p with attr }
  return { layout with properties }

/-- The first loop of `AddKey`: the layout and `insertIndex` behind it. -/
def shiftSortedIndices (keyHash : BitVec 32) : Nat → LayoutInfo κ → Option (LayoutInfo κ × Nat)
  | 0, layout => some (layout, 0)
  | insertIndex + 1, layout => do
      let prevKey ← layout.getSortedKey insertIndex
      if hash prevKey ≤ keyHash then return (layout, insertIndex + 1)
      let layout ← layout.setSortedIndex (insertIndex + 1) (← layout.getSortedIndex insertIndex)
      shiftSortedIndices keyHash insertIndex layout

/-- The second loop of `AddKey`: is there an exception because of a duplicate key? -/
def duplicatesKey (key : κ) : Nat → Option Bool
  | 0 => some false
  | insertIndex + 1 => do
      let prevKey ← layout.getSortedKey insertIndex
      if hash prevKey < hash key then return false
      if prevKey = key then return true
      duplicatesKey key insertIndex

/-- `AddKey`: the layout, and whether there is an exception. -/
def addKey (checkDuplicateKeys : Bool) (index : Nat) (key : κ) (attr : BitVec 64) :
    Option (LayoutInfo κ × Bool) := do
  let number := layout.numberOfElements
  guard (PropertyAttributes.getOffset attr = number)
  guard (number + 1 ≤ layout.getPropertiesCapacity)
  guard (number = index)
  let layout := layout.setNumberOfElements (number + 1)
  let layout ← layout.setPropertyInit number key attr
  let (layout, insertIndex) ← shiftSortedIndices hash (hash key) number layout
  let layout ← layout.setSortedIndex insertIndex number
  if checkDuplicateKeys then
    return (layout, ← layout.duplicatesKey hash key insertIndex)
  else
    return (layout, false)

/-- `BinarySearch`: the loop over hash codes, and the keys beside the one found. -/
def binarySearch (key : κ) (propertiesNumber : Nat) : Option Int := do
  let elements := layout.numberOfElements
  let keyHash := hash key
  let visible (sortIndex : Nat) : Int := if sortIndex < propertiesNumber then sortIndex else -1
  let sameHash (i : Nat) : Option Bool := (layout.getSortedKey i).map fun currentKey => hash currentKey = keyHash
  let sameKey (i : Nat) : Option Bool := (layout.getSortedKey i).map fun currentKey => currentKey = key
  let mid ← ArkRuntime.binarySearch (fun i => (layout.getSortedKey i).map fun midKey => ((hash midKey).toNat : Int))
    keyHash.toNat elements
  if mid < 0 then return -1
  let mid := mid.toNat
  if ← sameKey mid then return visible (← layout.getSortedIndex mid)
  match ← scanLeft sameHash sameKey mid with
  | some midLeft => return visible (← layout.getSortedIndex midLeft)
  | none =>
      let (midRight, found) ← scanRight sameHash sameKey (elements - (mid + 1)) (mid + 1)
      if found then return visible (← layout.getSortedIndex midRight)
      return -1

/-- The search of `FindElementWithCache` in small layouts, from the `i`-th property on; the first argument
    counts the properties that are left. -/
def linearSearch (key : κ) : Nat → Nat → Option Int
  | 0, _ => some (-1)
  | left + 1, i => do
      let p ← layout.properties[i]?
      if p.key = some key then return (i : Int)
      linearSearch key left (i + 1)

/-- `FindElementWithCache`; `cached` is what the cache of the thread has for the key, if it is used. -/
def findElementWithCache (cached : Option Int) (key : κ) (propertiesNumber : Nat) : Option Int :=
  if propertiesNumber ≤ 9 then layout.linearSearch key propertiesNumber 0
  else
    match cached with
    | some index => some index
    | none => layout.binarySearch hash key propertiesNumber

/-- The arguments of a call of `AddKey`. -/
structure Addition (κ : Type) where
  checkDuplicateKeys : Bool
  key : κ
  attr : BitVec 64
deriving DecidableEq, Repr

/-- Keys are added one after the other, up to an exception. -/
def addKeys : List (Addition κ) → LayoutInfo κ → Option (LayoutInfo κ × Bool)
  | [], layout => some (layout, false)
  | a :: additions, layout => do
      let (layout, exception) ← layout.addKey hash a.checkDuplicateKeys layout.numberOfElements a.key a.attr
      if exception then return (layout, true)
      addKeys additions layout

/-! ## Keys and sorted indices of the whole array -/

omit [DecidableEq κ]

def keySlots : List (Option κ) := layout.properties.map (·.key)

def sortedIndices : List Nat := layout.properties.map fun p => PropertyAttributes.getSortedIndex p.attr

variable {hash} {layout}

theorem getKey_eq (index : Nat) : layout.getKey index = (layout.keySlots[index]?).join := by
  rw [getKey, keySlots, List.getElem?_map]
  cases layout.properties[index]? <;> rfl

theorem getSortedIndex_eq (index : Nat) : layout.getSortedIndex index = layout.sortedIndices[index]? := by
  rw [getSortedIndex, getAttr, sortedIndices, List.getElem?_map, Option.map_map]
  rfl

variable {i index : Nat} {key : κ}

theorem getSortedKey_of {sortedIndex : Nat} (sorted : layout.sortedIndices[index]? = some sortedIndex) :
    layout.getSortedKey index = layout.getKey sortedIndex := by
  rw [getSortedKey, getSortedIndex_eq, sorted]
  rfl

@[simp] theorem length_keySlots : layout.keySlots.length = layout.getPropertiesCapacity := List.length_map _

@[simp] theorem length_sortedIndices : layout.sortedIndices.length = layout.getPropertiesCapacity :=
  List.length_map _

theorem setSortedIndex_spec (layout : LayoutInfo κ) {sortedIndex : Nat}
    (inside : index < layout.getPropertiesCapacity) (fits : sortedIndex < 1024) :
    ∃ layout', layout.setSortedIndex index sortedIndex = some layout' ∧
      layout'.extraLength = layout.extraLength ∧ layout'.keySlots = layout.keySlots ∧
      layout'.sortedIndices = layout.sortedIndices.set index sortedIndex := by
  have inside' : index < layout.properties.length := inside
  have read := List.getElem?_eq_getElem inside'
  let p := layout.properties[index]
  refine ⟨⟨layout.properties.set index ⟨p.key, PropertyAttributes.setSortedIndex sortedIndex p.attr⟩,
    layout.extraLength⟩, ?_, rfl, ?_, ?_⟩
  · rw [setSortedIndex, read]
    simp only [Option.bind_eq_bind, Option.bind_some, store_of_lt inside']
    rfl
  · have same : layout.keySlots.set index p.key = layout.keySlots := by
      rw [keySlots, ← List.map_set, List.set_getElem_self]
    rw [← same]
    simp only [keySlots, List.map_set]
  · simp only [sortedIndices, List.map_set, PropertyAttributes.getSortedIndex_setSortedIndex fits]

theorem setPropertyInit_spec (layout : LayoutInfo κ) (inside : index < layout.getPropertiesCapacity) (key : κ)
    (attr : BitVec 64) :
    ∃ layout' s, layout.setPropertyInit index key attr = some layout' ∧
      layout'.extraLength = layout.extraLength ∧ layout'.keySlots = layout.keySlots.set index (some key) ∧
      layout'.sortedIndices = layout.sortedIndices.set index s := by
  refine ⟨⟨layout.properties.set index ⟨some key, PropertyAttributes.getNormalTagged attr⟩,
    layout.extraLength⟩, PropertyAttributes.getSortedIndex (PropertyAttributes.getNormalTagged attr), ?_, rfl, ?_, ?_⟩
  · rw [setPropertyInit, store_of_lt inside]
    rfl
  · simp only [keySlots, List.map_set]
  · simp only [sortedIndices, List.map_set]

/-! ## Adding a key -/

/-- The loop that makes room for a key: the sorted indices of the keys with greater hash codes have moved up. -/
theorem shiftSortedIndices_spec (hash : κ → BitVec 32) (keyHash : BitVec 32) (m : Nat) (layout : LayoutInfo κ)
    (inside : m < layout.getPropertiesCapacity)
    (reads : ∀ j < m, ∃ s k, layout.sortedIndices[j]? = some s ∧ s < 1024 ∧ layout.getKey s = some k) :
    ∃ layout' p, shiftSortedIndices hash keyHash m layout = some (layout', p) ∧ p ≤ m ∧
      layout'.extraLength = layout.extraLength ∧ layout'.keySlots = layout.keySlots ∧
      layout'.sortedIndices.length = layout.sortedIndices.length ∧
      (∀ j, layout'.sortedIndices[j]? =
        if p < j ∧ j ≤ m then layout.sortedIndices[j - 1]? else layout.sortedIndices[j]?) ∧
      (∀ j s k, p ≤ j → j < m → layout.sortedIndices[j]? = some s → layout.getKey s = some k →
        keyHash < hash k) ∧
      ∀ j s k, j + 1 = p → layout.sortedIndices[j]? = some s → layout.getKey s = some k →
        hash k ≤ keyHash := by
  induction m generalizing layout with
  | zero =>
    refine ⟨layout, 0, rfl, Nat.le_refl 0, rfl, rfl, rfl, ?_, ?_, ?_⟩
    · intro j
      rw [if_neg (by omega)]
    · intro j s k _ below
      exact absurd below (Nat.not_lt_zero j)
    · intro j s k no
      exact absurd no (Nat.succ_ne_zero j)
  | succ m ih =>
    obtain ⟨s, k, sorted, fits, key⟩ := reads m (Nat.lt_succ_self m)
    rw [shiftSortedIndices, getSortedKey_of sorted, key, getSortedIndex_eq, sorted]
    simp only [Option.bind_eq_bind, Option.bind_some]
    by_cases le : hash k ≤ keyHash
    · rw [if_pos le]
      refine ⟨layout, m + 1, rfl, Nat.le_refl _, rfl, rfl, rfl, ?_, ?_, ?_⟩
      · intro j
        rw [if_neg (by omega)]
      · intro j s k behind below
        omega
      · rintro j s' k' same sorted' key'
        obtain rfl : j = m := by omega
        rw [sorted] at sorted'
        cases sorted'
        rw [key] at key'
        cases key'
        exact le
    · rw [if_neg le]
      obtain ⟨moved, set, number, keys, indices⟩ := setSortedIndex_spec layout inside fits
      have capacity : moved.getPropertiesCapacity = layout.getPropertiesCapacity := by
        rw [← length_keySlots, keys, length_keySlots]
      have below : ∀ j ≤ m, moved.sortedIndices[j]? = layout.sortedIndices[j]? := by
        intro j le
        rw [indices, List.getElem?_set_ne (by omega)]
      have same : ∀ i, moved.getKey i = layout.getKey i := by
        intro i
        rw [getKey_eq, getKey_eq, keys]
      obtain ⟨layout', p, run, place, number', keys', length, slots, greater, stop⟩ := ih moved
        (by rw [capacity]; omega) (fun j less => by
          rw [below j (by omega)]
          simpa only [same] using reads j (by omega))
      rw [set]
      refine ⟨layout', p, run, by omega, number'.trans number, keys'.trans keys, ?_, ?_, ?_, ?_⟩
      · rw [length, indices, List.length_set]
      · intro j
        rw [slots j]
        by_cases shifted : p < j ∧ j ≤ m
        · rw [if_pos shifted, if_pos (by omega), below _ (by omega)]
        · rw [if_neg shifted, indices]
          by_cases here : m + 1 = j
          · subst here
            rw [List.getElem?_set_self (by rwa [length_sortedIndices]), if_pos (by omega),
              Nat.add_sub_cancel, sorted]
          · rw [List.getElem?_set_ne here, if_neg (by omega)]
      · intro j s' k' behind less sorted' key'
        rcases Nat.lt_succ_iff_lt_or_eq.mp less with before | rfl
        · rw [← below j (by omega)] at sorted'
          rw [← same] at key'
          exact greater j s' k' behind before sorted' key'
        · rw [sorted] at sorted'
          cases sorted'
          rw [key] at key'
          cases key'
          exact BitVec.not_le.mp le
      · intro j s' k' before sorted' key'
        rw [← below j (by omega)] at sorted'
        rw [← same] at key'
        exact stop j s' k' before sorted' key'

/-- The hash code of the `i`-th key. -/
def hashAt (hash : κ → BitVec 32) (keys : List κ) (i : Nat) : Nat := ((keys[i]?).map fun k => (hash k).toNat).getD 0

theorem hashAt_eq {keys : List κ} {k : κ} (here : keys[i]? = some k) :
    hashAt hash keys i = (hash k).toNat := by
  rw [hashAt, here]
  rfl

theorem hashAt_append {keys : List κ} (below : i < keys.length) (key : κ) :
    hashAt hash (keys ++ [key]) i = hashAt hash keys i := by
  rw [hashAt, hashAt, List.getElem?_append_left below]

/-- The layout has these keys, and its sorted indices are `order`. -/
structure Lists (hash : κ → BitVec 32) (layout : LayoutInfo κ) (keys : List κ) (order : List Nat) : Prop where
  number : layout.numberOfElements = keys.length
  capacity : keys.length ≤ layout.getPropertiesCapacity
  limit : keys.length ≤ 1024
  slots : layout.keySlots.take keys.length = keys.map some
  indices : layout.sortedIndices.take keys.length = order
  perm : order.Perm (List.range keys.length)
  ascending : order.Pairwise fun i j => hashAt hash keys i ≤ hashAt hash keys j

namespace Lists

variable {keys : List κ} {order : List Nat}

theorem length_order (lists : Lists hash layout keys order) : order.length = keys.length := by
  rw [lists.perm.length_eq, List.length_range]

theorem order_lt (lists : Lists hash layout keys order) {i s : Nat} (here : order[i]? = some s) :
    s < keys.length := by
  have mem := lists.perm.mem_iff.mp (List.mem_of_getElem? here)
  exact List.mem_range.mp mem

theorem getSortedIndex (lists : Lists hash layout keys order) {i : Nat} (below : i < keys.length) :
    layout.sortedIndices[i]? = order[i]? := by
  rw [← lists.indices, List.getElem?_take_of_lt below]

theorem getKey (lists : Lists hash layout keys order) {i : Nat} (below : i < keys.length) :
    layout.getKey i = keys[i]? := by
  have slot : layout.keySlots[i]? = (keys.map some)[i]? := by
    rw [← lists.slots, List.getElem?_take_of_lt below]
  rw [getKey_eq, slot, List.getElem?_map]
  cases keys[i]? <;> rfl

/-- Each sorted index leads to a key. -/
theorem reads (lists : Lists hash layout keys order) {i : Nat} (below : i < keys.length) :
    ∃ s k, layout.sortedIndices[i]? = some s ∧ order[i]? = some s ∧ s < keys.length ∧
      keys[s]? = some k ∧ layout.getKey s = some k := by
  have here := List.getElem?_eq_getElem (show i < order.length by rwa [lists.length_order])
  have less := lists.order_lt here
  have key := List.getElem?_eq_getElem less
  exact ⟨_, _, (lists.getSortedIndex below).trans here, here, less, key, (lists.getKey less).trans key⟩

/-- Later in the order, the hash codes are not smaller. -/
theorem hashAt_le (lists : Lists hash layout keys order) {i j s t : Nat} (le : i ≤ j)
    (first : order[i]? = some s) (second : order[j]? = some t) : hashAt hash keys s ≤ hashAt hash keys t := by
  rcases Nat.eq_or_lt_of_le le with rfl | less
  · rw [first] at second
    cases second
    exact Nat.le_refl _
  · obtain ⟨below, rfl⟩ := List.getElem?_eq_some_iff.mp first
    obtain ⟨below', rfl⟩ := List.getElem?_eq_some_iff.mp second
    exact List.pairwise_iff_getElem.mp lists.ascending i j below below' less

/-- The order with the index of a new key put in. -/
theorem insertion (lists : Lists hash layout keys order) {p : Nat} (place : p ≤ keys.length) (key : κ)
    (before : ∀ i s, i < p → order[i]? = some s → hashAt hash keys s ≤ (hash key).toNat)
    (behind : ∀ i s, p ≤ i → order[i]? = some s → (hash key).toNat ≤ hashAt hash keys s) :
    (order.insertIdx p keys.length).Perm (List.range (keys.length + 1)) ∧
      (order.insertIdx p keys.length).Pairwise fun i j =>
        hashAt hash (keys ++ [key]) i ≤ hashAt hash (keys ++ [key]) j := by
  have place' : p ≤ order.length := by rwa [lists.length_order]
  have last : hashAt hash (keys ++ [key]) keys.length = (hash key).toNat :=
    hashAt_eq List.getElem?_concat_length
  have old : ∀ s ∈ order, hashAt hash (keys ++ [key]) s = hashAt hash keys s := fun s mem =>
    hashAt_append (List.mem_range.mp (lists.perm.mem_iff.mp mem)) key
  constructor
  · calc (order.insertIdx p keys.length).Perm (keys.length :: order) := List.perm_insertIdx _ _ place'
      _ |>.Perm (keys.length :: List.range keys.length) := lists.perm.cons _
      _ |>.Perm (List.range keys.length ++ [keys.length]) := (List.perm_append_singleton _ _).symm
      _ = List.range (keys.length + 1) := List.range_succ.symm
  · apply pairwise_insertIdx place'
    · apply lists.ascending.imp_of_mem
      intro i j first second le
      rwa [old i first, old j second]
    · intro i less s here
      rw [last, old s (List.mem_of_getElem? here)]
      exact before i s less here
    · intro i ge s here
      rw [last, old s (List.mem_of_getElem? here)]
      exact behind i s ge here

end Lists


/-- The array once a key stands behind the others, before its index is put into the order. -/
theorem Lists.setPropertyInit {keys : List κ} {order : List Nat} (lists : Lists hash layout keys order)
    (room : keys.length < layout.getPropertiesCapacity) (key : κ) (attr : BitVec 64) :
    ∃ layout', (layout.setNumberOfElements (keys.length + 1)).setPropertyInit keys.length key attr = some layout' ∧
      layout'.numberOfElements = keys.length + 1 ∧
      layout'.getPropertiesCapacity = layout.getPropertiesCapacity ∧
      layout'.keySlots.take (keys.length + 1) = (keys ++ [key]).map some ∧
      layout'.sortedIndices.take keys.length = order := by
  obtain ⟨layout', s, run, number, slots, indices⟩ :=
    setPropertyInit_spec (layout.setNumberOfElements (keys.length + 1)) room key attr
  have slots' : layout'.keySlots = layout.keySlots.set keys.length (some key) := slots
  have indices' : layout'.sortedIndices = layout.sortedIndices.set keys.length s := indices
  refine ⟨layout', run, number, ?_, ?_, ?_⟩
  · rw [← length_keySlots, slots', List.length_set, length_keySlots]
  · have inside : keys.length < layout'.keySlots.length := by
      rwa [slots', List.length_set, length_keySlots]
    rw [List.take_succ_eq_append_getElem inside, List.map_append, ← lists.slots]
    simp only [slots', List.take_set_of_le (Nat.le_refl _), List.getElem_set_self]
    rfl
  · rw [indices', List.take_set_of_le (Nat.le_refl _), lists.indices]

/-- No key before the place of a new one is the same key. -/
theorem duplicatesKey_eq_false [DecidableEq κ] {m : Nat}
    (reads : ∀ j < m, ∃ k, layout.getSortedKey j = some k ∧ k ≠ key) :
    layout.duplicatesKey hash key m = some false := by
  induction m with
  | zero => rfl
  | succ m ih =>
    obtain ⟨k, read, other⟩ := reads m (Nat.lt_succ_self m)
    rw [duplicatesKey, read]
    simp only [Option.bind_eq_bind, Option.bind_some, if_neg other]
    rw [ih fun j below => reads j (by omega)]
    split <;> rfl

/-- Both loops: the index of the new key is put into the order. -/
theorem Lists.insertIndex {keys : List κ} {order : List Nat} (lists : Lists hash layout keys order)
    {layout1 : LayoutInfo κ} (number : layout1.numberOfElements = keys.length + 1)
    (limit : keys.length < 1024) (room : keys.length < layout1.getPropertiesCapacity)
    (slots : layout1.keySlots.take (keys.length + 1) = (keys ++ [key]).map some)
    (indices : layout1.sortedIndices.take keys.length = order) :
    ∃ layout2 p layout3, shiftSortedIndices hash (hash key) keys.length layout1 = some (layout2, p) ∧
      layout2.setSortedIndex p keys.length = some layout3 ∧ p ≤ keys.length ∧
      layout3.getPropertiesCapacity = layout1.getPropertiesCapacity ∧
      Lists hash layout3 (keys ++ [key]) (order.insertIdx p keys.length) := by
  have sorted : ∀ j < keys.length, layout1.sortedIndices[j]? = order[j]? := by
    intro j below
    rw [← indices, List.getElem?_take_of_lt below]
  have key_at : ∀ {i k}, keys[i]? = some k → layout1.getKey i = some k := by
    intro i k here
    have below := (List.getElem?_eq_some_iff.mp here).1
    have slot : layout1.keySlots[i]? = some (some k) := by
      rw [← List.getElem?_take_of_lt (show i < keys.length + 1 by omega), slots, List.getElem?_map,
        List.getElem?_append_left below, here]
      rfl
    rw [getKey_eq, slot]
    rfl
  have reads : ∀ j < keys.length, ∃ s k, layout1.sortedIndices[j]? = some s ∧ s < 1024 ∧
      layout1.getKey s = some k := by
    intro j below
    obtain ⟨s, k, _, here, less, at_s, _⟩ := lists.reads below
    exact ⟨s, k, (sorted j below).trans here, by omega, key_at at_s⟩
  obtain ⟨layout2, p, shift, place, number2, slots2, length, moved, greater, stop⟩ :=
    shiftSortedIndices_spec hash (hash key) keys.length layout1 room reads
  have capacity2 : layout2.getPropertiesCapacity = layout1.getPropertiesCapacity := by
    rw [← length_keySlots, slots2, length_keySlots]
  obtain ⟨layout3, set, number3, slots3, indices3⟩ :=
    setSortedIndex_spec layout2 (show p < layout2.getPropertiesCapacity by omega) limit
  have capacity3 : layout3.getPropertiesCapacity = layout1.getPropertiesCapacity := by
    rw [← length_keySlots, slots3, length_keySlots, capacity2]
  have read : ∀ {i s}, order[i]? = some s → ∃ k, layout1.sortedIndices[i]? = some s ∧
      layout1.getKey s = some k ∧ hashAt hash keys s = (hash k).toNat ∧ i < keys.length := by
    intro i s here
    have below : i < keys.length := by
      rw [← lists.length_order]
      exact (List.getElem?_eq_some_iff.mp here).1
    have at_s := List.getElem?_eq_getElem (lists.order_lt here)
    exact ⟨_, (sorted i below).trans here, key_at at_s, hashAt_eq at_s, below⟩
  obtain ⟨perm, ascending⟩ := lists.insertion place key
    (fun i s less here => by
      -- the key before the place bounds those in front of it
      obtain ⟨t, k, _, last, _⟩ := lists.reads (show p - 1 < keys.length by omega)
      obtain ⟨k, at_last, key_last, hash_last, _⟩ := read last
      have bound := stop (p - 1) t k (by omega) at_last key_last
      rw [BitVec.le_def, ← hash_last] at bound
      exact Nat.le_trans (lists.hashAt_le (show i ≤ p - 1 by omega) here last) bound)
    (fun i s ge here => by
      obtain ⟨k, at_i, key_i, hash_i, below⟩ := read here
      have more := greater i s k ge below at_i key_i
      rw [BitVec.lt_def, ← hash_i] at more
      exact Nat.le_of_lt more)
  refine ⟨layout2, p, layout3, shift, set, place, capacity3, ?_⟩
  have grown : (keys ++ [key]).length = keys.length + 1 := by simp
  refine ⟨?_, by omega, by omega, ?_, ?_, by rwa [grown], ascending⟩
  · rw [grown, ← number]
    exact number3.trans number2
  · rw [grown, slots3, slots2, slots]
  · rw [grown, indices3, take_set_of_shifted place (by rwa [length_sortedIndices]) length moved, indices]

variable [DecidableEq κ]

/-- One key is added to the others. -/
theorem addKey_lists {keys : List κ} {order : List Nat} (lists : Lists hash layout keys order)
    (new : key ∉ keys) {attr : BitVec 64} (offset : PropertyAttributes.getOffset attr = keys.length)
    (room : keys.length < layout.getPropertiesCapacity) (checkDuplicateKeys : Bool) :
    ∃ layout' order',
      layout.addKey hash checkDuplicateKeys layout.numberOfElements key attr = some (layout', false) ∧
      layout'.getPropertiesCapacity = layout.getPropertiesCapacity ∧
      Lists hash layout' (keys ++ [key]) order' := by
  have limit : keys.length < 1024 := by
    rw [← offset]
    exact PropertyAttributes.getOffset_lt attr
  obtain ⟨layout1, init, number1, capacity1, slots1, indices1⟩ := lists.setPropertyInit room key attr
  obtain ⟨layout2, p, layout3, shift, set, place, capacity3, lists3⟩ :=
    lists.insertIndex number1 limit (by rwa [capacity1]) slots1 indices1
  have single : layout3.duplicatesKey hash key p = some false := by
    apply duplicatesKey_eq_false
    intro j less
    obtain ⟨s, k, at_j, here, _, at_s, read⟩ := lists3.reads (show j < (keys ++ [key]).length by simp; omega)
    refine ⟨k, (getSortedKey_of at_j).trans read, ?_⟩
    -- the sorted index before the place is an old one
    rintro rfl
    rw [List.getElem?_insertIdx_of_lt less] at here
    rw [List.getElem?_append_left (lists.order_lt here)] at at_s
    exact new (List.mem_of_getElem? at_s)
  refine ⟨layout3, order.insertIdx p keys.length, ?_, capacity3.trans capacity1, lists3⟩
  have room' : keys.length + 1 ≤ layout.getPropertiesCapacity := room
  simp only [addKey, lists.number, offset, guard, if_true, if_pos room', Option.pure_def,
    Option.bind_eq_bind, Option.bind_some, init, shift, set, single]
  cases checkDuplicateKeys <;> rfl

/-- Keys are added one after the other. -/
theorem addKeys_lists {keys : List κ} {order : List Nat} (lists : Lists hash layout keys order)
    {additions : List (Addition κ)} (distinct : (keys ++ additions.map (·.key)).Nodup)
    (offsets : ∀ i a, additions[i]? = some a → PropertyAttributes.getOffset a.attr = keys.length + i)
    (room : keys.length + additions.length ≤ layout.getPropertiesCapacity) :
    ∃ layout' order', addKeys hash additions layout = some (layout', false) ∧
      Lists hash layout' (keys ++ additions.map (·.key)) order' := by
  induction additions generalizing layout keys order with
  | nil =>
    refine ⟨layout, order, rfl, ?_⟩
    rw [List.map_nil, List.append_nil]
    exact lists
  | cons a additions ih =>
    have new : a.key ∉ keys := by
      intro mem
      exact (List.nodup_append.mp distinct).2.2 a.key mem a.key (by simp) rfl
    obtain ⟨layout1, order1, add, capacity, lists1⟩ := addKey_lists lists new (offsets 0 a rfl)
      (by rw [List.length_cons] at room; omega) a.checkDuplicateKeys
    have split : keys ++ (a :: additions).map (·.key) = keys ++ [a.key] ++ additions.map (·.key) := by simp
    rw [split] at distinct ⊢
    obtain ⟨layout', order', run, lists'⟩ := ih lists1 distinct
      (fun i b here => by
        rw [offsets (i + 1) b here, List.length_append, List.length_singleton]
        omega)
      (by
        rw [capacity, List.length_append, List.length_singleton]
        rw [List.length_cons] at room
        omega)
    refine ⟨layout', order', ?_, lists'⟩
    rw [addKeys, add]
    exact run

theorem initialized_lists (hash : κ → BitVec 32) (capacity : Nat) : Lists hash (initialized (κ := κ) capacity) [] [] where
  number := rfl
  capacity := Nat.zero_le _
  limit := Nat.zero_le _
  slots := rfl
  indices := rfl
  perm := List.Perm.refl _
  ascending := List.Pairwise.nil

/-! ## Searching a key -/

/-- The position of a key among the first `propertiesNumber` ones, or -1. -/
def position (keys : List κ) (key : κ) (propertiesNumber : Nat) : Int :=
  if key ∈ keys.take propertiesNumber then keys.idxOf key else -1

theorem position_of_getElem? {keys : List κ} (distinct : keys.Nodup) {s : Nat} (here : keys[s]? = some key)
    (propertiesNumber : Nat) :
    position keys key propertiesNumber = if s < propertiesNumber then (s : Int) else -1 := by
  obtain ⟨below, rfl⟩ := List.getElem?_eq_some_iff.mp here
  have index : keys.idxOf keys[s] = s := distinct.idxOf_getElem s below
  have mem : keys[s] ∈ keys.take propertiesNumber ↔ s < propertiesNumber := by
    rw [List.mem_take_iff_idxOf_lt (List.getElem_mem below), index]
  simp only [position, mem, index]

theorem position_of_notMem {keys : List κ} (absent : key ∉ keys) (propertiesNumber : Nat) :
    position keys key propertiesNumber = -1 :=
  if_neg fun mem => absent (List.mem_of_mem_take mem)

variable {keys : List κ} {order : List Nat}

/-- The search in small layouts finds the first position. -/
theorem linearSearch_eq (lists : Lists hash layout keys order) (key : κ) (left i : Nat)
    (inside : i + left ≤ keys.length) (passed : key ∉ keys.take i) :
    layout.linearSearch key left i = some (position keys key (i + left)) := by
  induction left generalizing i with
  | zero =>
    rw [linearSearch, Nat.add_zero, position, if_neg passed]
  | succ left ih =>
    have below : i < keys.length := by omega
    have read := lists.getKey below
    rw [List.getElem?_eq_getElem below, LayoutInfo.getKey] at read
    obtain ⟨p, slot, key_p⟩ := Option.bind_eq_some_iff.mp read
    rw [linearSearch, slot]
    simp only [Option.bind_eq_bind, Option.bind_some, key_p, Option.some.injEq]
    have next : keys.take (i + 1) = keys.take i ++ [keys[i]] := List.take_succ_eq_append_getElem below
    by_cases same : keys[i] = key
    · have mem : key ∈ keys.take (i + (left + 1)) := by
        rw [← same, List.mem_take_iff_getElem]
        exact ⟨i, by omega, rfl⟩
      have index : keys.idxOf key = i := by
        rw [← List.take_append_drop i keys, List.idxOf_append_of_notMem passed,
          List.drop_eq_getElem_cons below, same, List.idxOf_cons_self, List.length_take]
        omega
      rw [if_pos same, position, if_pos mem, index]
      rfl
    · rw [if_neg same, ih (i + 1) (by omega), Nat.add_assoc, Nat.add_comm 1 left]
      rw [next]
      intro mem
      rcases List.mem_append.mp mem with before | here
      · exact passed before
      · exact same (List.mem_singleton.mp here).symm

/-- The hash code of the `i`-th key in the order. -/
def sortedHash (hash : κ → BitVec 32) (keys : List κ) (order : List Nat) (i : Nat) : Int :=
  hashAt hash keys (order.getD i 0)

theorem Lists.getSortedKey (lists : Lists hash layout keys order) (below : i < keys.length) :
    ∃ s k, layout.getSortedIndex i = some s ∧ keys[s]? = some k ∧ layout.getSortedKey i = some k ∧
      sortedHash hash keys order i = (hash k).toNat := by
  obtain ⟨s, k, at_i, here, _, at_s, read⟩ := lists.reads below
  refine ⟨s, k, (getSortedIndex_eq i).trans at_i, at_s, (getSortedKey_of at_i).trans read, ?_⟩
  rw [sortedHash, List.getD_eq_getElem?_getD, here, Option.getD_some, hashAt_eq at_s]

theorem Lists.ascending_sortedHash (lists : Lists hash layout keys order) :
    Ascending (sortedHash hash keys order) keys.length := by
  intro i j le below
  obtain ⟨s, _, _, first, _⟩ := lists.reads (show i < keys.length by omega)
  obtain ⟨t, _, _, second, _⟩ := lists.reads below
  simp only [sortedHash, List.getD_eq_getElem?_getD, first, second, Option.getD_some]
  exact Int.ofNat_le.mpr (lists.hashAt_le le first second)

/-- Every key has its place in the order. -/
theorem Lists.exists_place (lists : Lists hash layout keys order) (mem : key ∈ keys) :
    ∃ i < keys.length, layout.getSortedKey i = some key := by
  obtain ⟨s, below, rfl⟩ := List.getElem_of_mem mem
  have listed : s ∈ order := lists.perm.mem_iff.mpr (List.mem_range.mpr below)
  obtain ⟨i, less, rfl⟩ := List.getElem_of_mem listed
  rw [lists.length_order] at less
  obtain ⟨s, k, at_i, here, _, at_s, read⟩ := lists.reads less
  refine ⟨i, less, (getSortedKey_of at_i).trans ?_⟩
  obtain ⟨_, rfl⟩ := List.getElem?_eq_some_iff.mp here
  rw [read, ← at_s, List.getElem?_eq_getElem below]

/-- Is the `i`-th key in the order this one? -/
def isKeyAt (layout : LayoutInfo κ) (key : κ) (i : Nat) : Bool := layout.getSortedKey i = some key

theorem Lists.sameHash (lists : Lists hash layout keys order) (key : κ) (below : i < keys.length) :
    (layout.getSortedKey i).map (fun currentKey => decide (hash currentKey = hash key)) =
      some (decide (sortedHash hash keys order i = (hash key).toNat)) := by
  obtain ⟨_, c, _, _, read, same⟩ := lists.getSortedKey below
  have iff : hash c = hash key ↔ ((hash c).toNat : Int) = (hash key).toNat := by
    rw [Int.ofNat_inj, BitVec.toNat_inj]
  simp only [read, Option.map_some, same, iff]

theorem Lists.sameKey (lists : Lists hash layout keys order) (key : κ) (below : i < keys.length) :
    (layout.getSortedKey i).map (fun currentKey => decide (currentKey = key)) =
      some (layout.isKeyAt key i) := by
  obtain ⟨_, c, _, _, read, _⟩ := lists.getSortedKey below
  simp only [read, Option.map_some, isKeyAt, Option.some.injEq]

/-- What `BinarySearch` returns at the place of the key. -/
theorem Lists.visible (lists : Lists hash layout keys order) (distinct : keys.Nodup) (below : i < keys.length)
    (found : layout.isKeyAt key i = true) (propertiesNumber : Nat) :
    ∃ s, layout.getSortedIndex i = some s ∧
      position keys key propertiesNumber = if s < propertiesNumber then (s : Int) else -1 := by
  obtain ⟨s, c, index, at_s, read, _⟩ := lists.getSortedKey below
  have same : c = key := by simpa only [isKeyAt, read, Option.some.injEq, decide_eq_true_eq] using found
  subst same
  exact ⟨s, index, position_of_getElem? distinct at_s propertiesNumber⟩

theorem Lists.absent (lists : Lists hash layout keys order)
    (nowhere : ∀ i < keys.length, sortedHash hash keys order i = (hash key).toNat →
      layout.isKeyAt key i = false) (propertiesNumber : Nat) : position keys key propertiesNumber = -1 := by
  apply position_of_notMem
  intro mem
  obtain ⟨i, below, read⟩ := lists.exists_place mem
  obtain ⟨_, c, _, _, read', same⟩ := lists.getSortedKey below
  rw [read] at read'
  cases read'
  have no := nowhere i below same
  simp [isKeyAt, read] at no

/-- `BinarySearch` finds the position of a key. -/
theorem binarySearch_eq (lists : Lists hash layout keys order) (distinct : keys.Nodup) (key : κ)
    (propertiesNumber : Nat) :
    layout.binarySearch hash key propertiesNumber = some (position keys key propertiesNumber) := by
  have reads : ∀ i < keys.length,
      (layout.getSortedKey i).map (fun midKey => ((hash midKey).toNat : Int)) =
        some (sortedHash hash keys order i) := by
    intro i below
    obtain ⟨_, _, _, _, read, same⟩ := lists.getSortedKey below
    rw [read, same]
    rfl
  have hashes := fun i (below : i < keys.length) => lists.sameHash key below
  have keyAt := fun i (below : i < keys.length) => lists.sameKey key below
  obtain ⟨r, search, ⟨mid, below, rfl, here⟩ | ⟨p, _, rfl, cuts⟩⟩ :=
    binarySearch_spec keys.length (hash key).toNat reads
  · rw [binarySearch, lists.number, search]
    simp only [Option.bind_eq_bind, Option.bind_some, Int.toNat_natCast, keyAt mid below,
      if_neg (show ¬ (mid : Int) < 0 by omega)]
    cases found : layout.isKeyAt key mid with
    | true =>
      obtain ⟨s, index, position⟩ := lists.visible distinct below found propertiesNumber
      simp only [if_true, index, Option.bind_some, position]
      rfl
    | false =>
      obtain ⟨left, scan, yes, no⟩ := scanLeft_spec hashes keyAt mid (by omega)
      rw [scan]
      simp only [Option.bind_some, Bool.false_eq_true, if_false]
      cases left with
      | some i =>
        obtain ⟨less, _, at_i⟩ := yes i rfl
        obtain ⟨s, index, position⟩ := lists.visible distinct (show i < keys.length by omega) at_i propertiesNumber
        simp only [index, Option.bind_some, position]
        rfl
      | none =>
        obtain ⟨b, le, before, stop⟩ := no rfl
        obtain ⟨right, hit, scan', ge, bound, passed, yes', no'⟩ :=
          scanRight_spec hashes keyAt (keys.length - (mid + 1)) (mid + 1) (by omega)
        rw [scan']
        cases hit with
        | true =>
          obtain ⟨less, _, at_right⟩ := yes' rfl
          obtain ⟨s, index, position⟩ := lists.visible distinct less at_right propertiesNumber
          simp only [Option.bind_some, if_true, index, position]
          rfl
        | false =>
          have nowhere := scan_none lists.ascending_sortedHash (fun i _ => rfl) below here
            (show mid ≤ right by omega)
            (fun j ge' less => by
              rcases Nat.eq_or_lt_of_le ge' with rfl | behind
              · exact found
              · exact (passed j behind less).2)
            (fun less => no' rfl less) le before stop
          rw [lists.absent nowhere]
          rfl
  · rw [binarySearch, lists.number, search]
    simp only [Option.bind_eq_bind, Option.bind_some, if_pos (show -((p : Int) + 1) < 0 by omega)]
    rw [lists.absent]
    · rfl
    · intro i below same
      have cuts := cuts lists.ascending_sortedHash
      rcases Nat.lt_or_ge i p with before | behind
      · have less := cuts.1 i before
        omega
      · have more := cuts.2 i behind below
        omega

/-- Behind the cache is one of the two searches. -/
theorem findElementWithCache_eq {layout : LayoutInfo κ} {hash : κ → BitVec 32} {cached : Option Int}
    {propertiesNumber : Nat} {index : Int}
    (binary : layout.binarySearch hash key propertiesNumber = some index)
    (linear : layout.linearSearch key propertiesNumber 0 = some index) (right : ∀ i ∈ cached, i = index) :
    layout.findElementWithCache hash cached key propertiesNumber = some index := by
  unfold findElementWithCache
  split_ifs
  · exact linear
  · cases cached with
    | none => exact binary
    | some i => rw [right i rfl]

/-- A layout that keys were added to has them in the order of their hash codes, and finds each of them; a cache
    may have the position of the key. -/
theorem search_addKeys (hash : κ → BitVec 32) (capacity : Nat) (additions : List (Addition κ))
    (distinct : (additions.map (·.key)).Nodup)
    (offsets : ∀ i a, additions[i]? = some a → PropertyAttributes.getOffset a.attr = i)
    (room : additions.length ≤ capacity) :
    ∃ layout, ∃ order : List Nat, addKeys hash additions (initialized capacity) = some (layout, false) ∧
      layout.numberOfElements = additions.length ∧
      (∀ i < additions.length, layout.getSortedIndex i = order[i]?) ∧
      order.Perm (List.range additions.length) ∧
      (order.Pairwise fun i j =>
        hashAt hash (additions.map (·.key)) i ≤ hashAt hash (additions.map (·.key)) j) ∧
      ∀ key propertiesNumber, propertiesNumber ≤ additions.length →
        layout.binarySearch hash key propertiesNumber =
          some (position (additions.map (·.key)) key propertiesNumber) ∧
        layout.linearSearch key propertiesNumber 0 =
          some (position (additions.map (·.key)) key propertiesNumber) ∧
        ∀ cached : Option Int, (∀ i ∈ cached, i = position (additions.map (·.key)) key propertiesNumber) →
          layout.findElementWithCache hash cached key propertiesNumber =
            some (position (additions.map (·.key)) key propertiesNumber) := by
  have room' : additions.length ≤ (initialized (κ := κ) capacity).getPropertiesCapacity := by
    simpa [initialized, getPropertiesCapacity] using room
  obtain ⟨layout, order, run, lists⟩ := addKeys_lists (initialized_lists hash capacity) distinct
    (fun i a here => by rw [offsets i a here, List.length_nil, Nat.zero_add])
    (by rwa [List.length_nil, Nat.zero_add])
  rw [List.nil_append] at lists
  have length : (additions.map (·.key)).length = additions.length := List.length_map _
  refine ⟨layout, order, run, ?_, ?_, ?_, lists.ascending, ?_⟩
  · rw [lists.number, length]
  · intro i below
    rw [getSortedIndex_eq, lists.getSortedIndex (by rwa [length])]
  · rw [← length]
    exact lists.perm
  · intro key propertiesNumber le
    have binary := binarySearch_eq lists distinct key propertiesNumber
    have linear := linearSearch_eq lists key propertiesNumber 0
      (by rwa [length, Nat.zero_add]) (by simp)
    rw [Nat.zero_add] at linear
    exact ⟨binary, linear, fun _ right => findElementWithCache_eq binary linear right⟩

/-- Three keys, two of them with the same hash code. -/
theorem search_addKeys_collision :
    ∃ layout, ∃ order : List Nat,
      addKeys (fun key : Nat => BitVec.ofNat 32 (key % 2)) [⟨false, 3, 0⟩, ⟨true, 4, 128⟩, ⟨true, 5, 256⟩]
        (initialized 4) = some (layout, false) ∧
      layout.numberOfElements = 3 ∧
      (∀ i < 3, layout.getSortedIndex i = order[i]?) ∧
      order.Perm (List.range 3) ∧
      (order.Pairwise fun i j =>
        hashAt (fun key : Nat => BitVec.ofNat 32 (key % 2)) [3, 4, 5] i ≤
          hashAt (fun key : Nat => BitVec.ofNat 32 (key % 2)) [3, 4, 5] j) ∧
      ∀ key propertiesNumber, propertiesNumber ≤ 3 →
        layout.binarySearch (fun key : Nat => BitVec.ofNat 32 (key % 2)) key propertiesNumber =
          some (position [3, 4, 5] key propertiesNumber) ∧
        layout.linearSearch key propertiesNumber 0 = some (position [3, 4, 5] key propertiesNumber) ∧
        ∀ cached : Option Int, (∀ i ∈ cached, i = position [3, 4, 5] key propertiesNumber) →
          layout.findElementWithCache (fun key : Nat => BitVec.ofNat 32 (key % 2)) cached key propertiesNumber =
            some (position [3, 4, 5] key propertiesNumber) :=
  search_addKeys (fun key : Nat => BitVec.ofNat 32 (key % 2)) 4
    [⟨false, 3, 0⟩, ⟨true, 4, 128⟩, ⟨true, 5, 256⟩] (by decide)
    (by
      intro i a here
      match i with
      | 0 | 1 | 2 => cases here; rfl
      | i + 3 => simp at here)
    (by decide)

end LayoutInfo

end ArkRuntime
