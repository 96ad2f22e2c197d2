import ArkRuntime.LinkedHash.Model
import ArkRuntime.Misc.LastBelow
import Mathlib.Data.List.ReduceOption

/-!
# The content of a hash table

`view` reads a table as its three counts, its buckets and the key, the value and the chain slot of
each entry. The lemmas say what each write to the array does to the view; they are the only place
where the layout of the slots is used.
-/

namespace ArkRuntime

/-- The content of a table. -/
@[ext]
structure TableView (α : Type) where
  elements : Int
  deleted : Int
  capacity : Int
  bucket : Nat → JSTaggedValue α
  key : Nat → JSTaggedValue α
  value : Nat → JSTaggedValue α
  next : Nat → JSTaggedValue α

namespace LinkedHashTable

variable {d : HashDerived} {α : Type} {t : LinkedHashTable d α}

def view (t : LinkedHashTable d α) : TableView α where
  elements := t.numberOfElements
  deleted := t.numberOfDeletedElements
  capacity := t.capacity
  bucket b := if (b : Int) < t.capacity then t.getElement (bucketToIndex b) else .hole
  key e := t.getKey e
  value e := t.getValue e
  next e := t.getNextEntry e

theorem getElement_setElement (t : LinkedHashTable d α) (i j : Int) (v : JSTaggedValue α) :
    (t.setElement i v).getElement j = if j = i then v else t.getElement j := rfl

theorem get_setElement (t : LinkedHashTable d α) (i j : Int) (v : JSTaggedValue α) :
    (t.setElement i v).get j = if j = i then v else t.get j := rfl

/-- A write behind the header leaves the counts alone. -/
theorem header_setElement {i : Int} (behind : 4 ≤ i) (v : JSTaggedValue α) :
    (t.setElement i v).numberOfElements = t.numberOfElements ∧
      (t.setElement i v).numberOfDeletedElements = t.numberOfDeletedElements ∧
      (t.setElement i v).capacity = t.capacity := by
  simp only [numberOfElements, numberOfDeletedElements, capacity, get_setElement]
  rw [if_neg (by omega), if_neg (by omega), if_neg (by omega)]
  exact ⟨rfl, rfl, rfl⟩

/-- A slot is at the `offset`-th place of the entry `e`. -/
theorem entryToIndex_inj {e f i j : Nat} (hi : i ≤ d.entrySize) (hj : j ≤ d.entrySize) :
    t.entryToIndex e + i = t.entryToIndex f + j ↔ e = f ∧ i = j := by
  unfold entryToIndex
  cases d <;> simp only [HashDerived.entrySize] at hi hj ⊢ <;> omega

theorem four_le_entryToIndex (room : 0 ≤ t.capacity) (e : Nat) :
    4 + t.capacity ≤ t.entryToIndex e := by
  unfold entryToIndex elementsStartIndex
  cases d <;> simp only [HashDerived.entrySize] <;> omega

theorem entryToIndex_congr {t' : LinkedHashTable d α} (same : t'.capacity = t.capacity) (e : Int) :
    t'.entryToIndex e = t.entryToIndex e := by
  rw [entryToIndex, entryToIndex, same]

/-- The place of the value in an entry. -/
def valueOffset : HashDerived → Nat
  | .map => 1
  | .set => 0

theorem getValue_eq (t : LinkedHashTable d α) (e : Int) :
    t.getValue e = t.getElement (t.entryToIndex e + valueOffset d) := by
  cases d <;> rfl

theorem setValue_eq (t : LinkedHashTable d α) (e : Int) (v : JSTaggedValue α) :
    t.setValue e v = t.setElement (t.entryToIndex e + valueOffset d) v := by
  cases d <;> rfl

theorem valueOffset_lt (d : HashDerived) : valueOffset d < d.entrySize := by
  cases d <;> simp [valueOffset, HashDerived.entrySize]

/-- What a write to the `i`-th place of an entry does. -/
theorem view_setEntry (room : 0 ≤ t.capacity) {i : Nat} (inside : i ≤ d.entrySize) (e : Nat)
    (v : JSTaggedValue α) :
    (t.setElement (t.entryToIndex e + i) v).view =
      { t.view with
        key := if i = 0 then Function.update t.view.key e v else t.view.key
        value := if i = valueOffset d then Function.update t.view.value e v else t.view.value
        next := if i = d.entrySize then Function.update t.view.next e v else t.view.next } := by
  have behind := four_le_entryToIndex room e
  obtain ⟨elements, deleted, capacity⟩ :=
    header_setElement (t := t) (i := t.entryToIndex e + i) (by omega) v
  have small := valueOffset_lt d
  have place (f j : Nat) (hj : j ≤ d.entrySize) :
      (t.setElement (t.entryToIndex e + i) v).getElement (t.entryToIndex f + j) =
        if j = i then Function.update (fun g : Nat => t.getElement (t.entryToIndex g + j)) e v f
        else t.getElement (t.entryToIndex f + j) := by
    rw [getElement_setElement]
    simp only [entryToIndex_inj hj inside, Function.update_apply]
    by_cases h : j = i <;> simp [h]
  have first (f : Nat) : t.entryToIndex f = t.entryToIndex f + (0 : Nat) := by simp
  refine TableView.ext elements deleted capacity ?_ ?_ ?_ ?_
  · funext b
    simp only [view, capacity]
    split_ifs with below
    · rw [getElement_setElement, if_neg]
      unfold bucketToIndex elementsStartIndex
      omega
    · rfl
  · funext f
    simp only [view, getKey, entryToIndex_congr capacity]
    rw [first f, place f 0 (by omega)]
    by_cases h : i = 0
    · subst h
      simp
    · rw [if_neg (Ne.symm h), if_neg h, ← first f]
  · funext f
    simp only [view, getValue_eq, entryToIndex_congr capacity]
    rw [place f _ (by omega)]
    by_cases h : i = valueOffset d
    · subst h
      simp
    · rw [if_neg (Ne.symm h), if_neg h]
  · funext f
    simp only [view, getNextEntry, entryToIndex_congr capacity]
    rw [place f _ (Nat.le_refl _)]
    by_cases h : i = d.entrySize
    · subst h
      simp
    · rw [if_neg (Ne.symm h), if_neg h]

/-- What a write to a slot of the header or of the buckets leaves alone. -/
theorem entries_setElement {i : Int} (before : i < 4 + t.capacity) (room : 0 ≤ t.capacity)
    {v : JSTaggedValue α} (capacity : (t.setElement i v).capacity = t.capacity) :
    (t.setElement i v).view.key = t.view.key ∧ (t.setElement i v).view.value = t.view.value ∧
      (t.setElement i v).view.next = t.view.next := by
  have place (f j : Nat) : (t.setElement i v).getElement (t.entryToIndex f + j) =
      t.getElement (t.entryToIndex f + j) := by
    have behind := four_le_entryToIndex room f
    rw [getElement_setElement, if_neg (by omega)]
  refine ⟨funext fun f => ?_, funext fun f => ?_, funext fun f => ?_⟩
  · simp only [view, getKey, entryToIndex_congr capacity]
    simpa using place f 0
  · simp only [view, getValue_eq, entryToIndex_congr capacity]
    exact place f _
  · simp only [view, getNextEntry, entryToIndex_congr capacity]
    exact place f _

theorem view_setBucket {b : Nat} (inside : (b : Int) < t.capacity) (v : JSTaggedValue α) :
    (t.setElement (bucketToIndex b) v).view =
      { t.view with bucket := Function.update t.view.bucket b v } := by
  have index : bucketToIndex b = b + 4 := rfl
  obtain ⟨elements, deleted, capacity⟩ :=
    header_setElement (t := t) (i := bucketToIndex b) (by omega) v
  obtain ⟨key, value, next⟩ :=
    entries_setElement (t := t) (i := bucketToIndex b) (by omega) (by omega) capacity
  refine TableView.ext elements deleted capacity ?_ key value next
  funext c
  simp only [view, capacity, getElement_setElement, Function.update_apply]
  have apart : bucketToIndex c = bucketToIndex b ↔ c = b := by
    unfold bucketToIndex
    omega
  by_cases same : c = b
  · simp [same, inside]
  · simp only [apart, same, if_false]

/-- A write to the header leaves the buckets and the entries alone. -/
theorem view_setHeader {i : Int} (header : i < 2) (room : 0 ≤ t.capacity) (v : JSTaggedValue α) :
    (t.setElement i v).view =
      { t.view with
        elements := (t.setElement i v).numberOfElements
        deleted := (t.setElement i v).numberOfDeletedElements } := by
  have capacity : (t.setElement i v).capacity = t.capacity := by
    simp only [LinkedHashTable.capacity, get_setElement]
    rw [if_neg (by omega)]
  obtain ⟨key, value, next⟩ := entries_setElement (t := t) (i := i) (by omega) room capacity
  refine TableView.ext rfl rfl capacity ?_ key value next
  funext b
  simp only [view, capacity, getElement_setElement, bucketToIndex, elementsStartIndex]
  split_ifs with below other
  · omega
  · rfl
  · rfl

theorem view_setNumberOfElements (room : 0 ≤ t.capacity) (nof : Int) :
    (t.setNumberOfElements nof).view = { t.view with elements := nof } := by
  rw [setNumberOfElements, view_setHeader (by omega) room]
  rfl

theorem view_setNumberOfDeletedElements (room : 0 ≤ t.capacity) (nod : Int) :
    (t.setNumberOfDeletedElements nod).view = { t.view with deleted := nod } := by
  rw [setNumberOfDeletedElements, view_setHeader (by omega) room]
  rfl

@[simp] theorem view_setNextTable (t : LinkedHashTable d α) (address : Nat) :
    (t.setNextTable address).view = t.view := rfl

/-- The view of a table that was just made: no bucket names an entry. -/
theorem view_create (n : Nat) : (create d n : LinkedHashTable d α).view =
    ⟨0, 0, n, fun _ => .hole, fun _ => .hole, fun _ => .hole, fun _ => .hole⟩ := by
  have capacity : (create d n : LinkedHashTable d α).capacity = n := rfl
  have empty (i : Int) (behind : 4 ≤ i) :
      (create d n : LinkedHashTable d α).getElement i = .hole := by
    simp only [create, setNumberOfElements, setNumberOfDeletedElements, setCapacity,
      getElement_setElement]
    rw [if_neg (by omega), if_neg (by omega), if_neg (by omega)]
    rfl
  have behind (e : Nat) := four_le_entryToIndex (t := (create d n : LinkedHashTable d α))
    (by omega) e
  refine TableView.ext rfl rfl rfl (funext fun b => ?_) (funext fun e => ?_) (funext fun e => ?_)
    (funext fun e => ?_)
  · simp only [view]
    rw [empty _ (by unfold bucketToIndex elementsStartIndex; omega)]
    split_ifs <;> rfl
  · exact empty _ (by have := behind e; omega)
  · simp only [view, getValue_eq]
    exact empty _ (by have := behind e; omega)
  · exact empty _ (by have := behind e; omega)

end LinkedHashTable

end ArkRuntime

/-!
## What a hash table stands for

The entries of a table are a list of slots: `some (key, value)`, or `none` for a removed entry.
`Filled` says that a table holds such a list and that the entries of each bucket are chained from
the last one to the first; `home` remembers the bucket of an entry, also of a removed one, whose key
is gone. `Encodes` adds the counts of the header and that no key occurs twice.
-/

namespace ArkRuntime

namespace LinkedHash

variable {d : HashDerived} {α : Type}

/-- An entry of a table, or the place of a removed one. -/
abbrev Slot (α : Type) := Option (JSTaggedValue α × JSTaggedValue α)

/-- The content of a bucket or a chain slot. -/
def link : Option Nat → JSTaggedValue α
  | none => .hole
  | some e => .int e

@[simp] theorem link_none : (link none : JSTaggedValue α) = .hole := rfl
@[simp] theorem link_some (e : Nat) : (link (some e) : JSTaggedValue α) = .int e := rfl

def bucketOf (capacity : Int) (hash : UInt32) : Nat := hash.toNat &&& (capacity - 1).toNat

theorem bucketOf_lt {capacity : Int} (room : 0 < capacity) (hash : UInt32) :
    (bucketOf capacity hash : Int) < capacity := by
  have below : hash.toNat &&& (capacity - 1).toNat ≤ (capacity - 1).toNat := Nat.and_le_right
  unfold bucketOf
  omega

/-- The first `m` entries are chained, each in the bucket `home e`. -/
structure Chained (v : TableView α) (home : Nat → Nat) (m : Nat) : Prop where
  bucket : ∀ b : Nat, (b : Int) < v.capacity → v.bucket b = link (lastBelow (fun e => home e = b) m)
  next : ∀ e < m, v.next e = link (lastBelow (fun f => home f = home e) e)

/-- The content of a table is the list of slots. -/
structure Holds (v : TableView α) (slots : List (Slot α)) : Prop where
  live : ∀ {e k x}, slots[e]? = some (some (k, x)) → v.key e = k ∧ v.value e = x ∧ k ≠ .hole
  dead : ∀ {e}, slots[e]? = some none → v.key e = .hole

/-- The table holds the slots, and each entry is in the chain of its key's bucket. -/
structure Filled (rt : HashRuntime α) (v : TableView α) (slots : List (Slot α)) : Prop where
  room : 0 < v.capacity
  fits : (slots.length : Int) ≤ v.capacity
  holds : Holds v slots
  chained : ∃ home, Chained v home slots.length ∧
    ∀ {e k x}, slots[e]? = some (some (k, x)) → home e = bucketOf v.capacity (rt.hash k)

/-- No two entries have the same key. -/
def DistinctKeys (rt : HashRuntime α) (entries : List (JSTaggedValue α × JSTaggedValue α)) : Prop :=
  entries.Pairwise fun a b => rt.sameValueZero a.1 b.1 = false

/-- The table stands for the list of slots. -/
structure Encodes (rt : HashRuntime α) (t : LinkedHashTable d α) (slots : List (Slot α)) : Prop where
  filled : Filled rt t.view slots
  elements : t.numberOfElements = slots.reduceOption.length
  deleted : t.numberOfDeletedElements = slots.length - slots.reduceOption.length
  distinct : DistinctKeys rt slots.reduceOption
  current : t.nextTable = none
  sets : d = .set → ∀ p ∈ slots.reduceOption, p.2 = p.1

theorem Encodes.nonneg {rt : HashRuntime α} {t : LinkedHashTable d α} {slots : List (Slot α)}
    (enc : Encodes rt t slots) : 0 ≤ t.capacity := Int.le_of_lt enc.filled.room

section Filled

variable {rt : HashRuntime α} {v : TableView α} {slots : List (Slot α)}

/-- The counts of the header do not matter. -/
theorem Filled.congr {v' : TableView α} (filled : Filled rt v slots)
    (capacity : v'.capacity = v.capacity) (bucket : v'.bucket = v.bucket) (key : v'.key = v.key)
    (value : v'.value = v.value) (next : v'.next = v.next) : Filled rt v' slots := by
  obtain ⟨elements, deleted, _, _, _, _, _⟩ := v'
  subst capacity bucket key value next
  obtain ⟨home, chained, homes⟩ := filled.chained
  exact ⟨filled.room, filled.fits, ⟨filled.holds.live, filled.holds.dead⟩,
    home, ⟨chained.bucket, chained.next⟩, homes⟩

theorem Filled.nil (room : 0 < v.capacity) (empty : ∀ b, v.bucket b = .hole) : Filled rt v [] := by
  refine ⟨room, by simpa using Int.le_of_lt room, ⟨by simp, by simp⟩, fun _ => 0, ⟨?_, by simp⟩, by simp⟩
  intro b _
  rw [empty b]
  rfl

/-- A further entry: it is put before the others in the chain of its bucket. -/
theorem Filled.append {k x : JSTaggedValue α} (filled : Filled rt v slots) (isKey : k ≠ .hole)
    (free : (slots.length : Int) < v.capacity) :
    Filled rt { v with
      bucket := Function.update v.bucket (bucketOf v.capacity (rt.hash k)) (.int slots.length)
      key := Function.update v.key slots.length k
      value := Function.update v.value slots.length x
      next := Function.update v.next slots.length
        (v.bucket (bucketOf v.capacity (rt.hash k))) } (slots ++ [some (k, x)]) := by
  obtain ⟨home, chained, homes⟩ := filled.chained
  generalize hb : bucketOf v.capacity (rt.hash k) = b
  have inside : (b : Int) < v.capacity := hb ▸ bucketOf_lt filled.room _
  have old {e : Nat} (below : e < slots.length) : e ≠ slots.length := by omega
  have homeBelow (c m : Nat) (low : m ≤ slots.length) :
      lastBelow (fun e => Function.update home slots.length b e = c) m =
        lastBelow (fun e => home e = c) m :=
    lastBelow_congr fun e below => by rw [Function.update_of_ne (by omega)]
  have at' {e : Nat} {s : Slot α} (here : (slots ++ [some (k, x)])[e]? = some s) :
      slots[e]? = some s ∧ e < slots.length ∨ e = slots.length ∧ s = some (k, x) := by
    rcases Nat.lt_trichotomy e slots.length with below | same | above
    · rw [List.getElem?_append_left below] at here
      exact .inl ⟨here, below⟩
    · subst same
      simp only [List.getElem?_concat_length, Option.some.injEq] at here
      exact .inr ⟨rfl, here.symm⟩
    · rw [List.getElem?_eq_none (by simp; omega)] at here
      cases here
  refine ⟨filled.room, ?_, ⟨?_, ?_⟩, Function.update home slots.length b, ⟨?_, ?_⟩, ?_⟩
  · simp only [List.length_append, List.length_singleton]
    omega
  · intro e k' x' here
    rcases at' here with ⟨here, below⟩ | ⟨rfl, same⟩
    · simp only [Function.update_of_ne (old below)]
      exact filled.holds.live here
    · simp only [Option.some.injEq, Prod.mk.injEq] at same
      simp only [Function.update_self, same, ne_eq, true_and]
      exact same.1 ▸ isKey
  · intro e here
    rcases at' here with ⟨here, below⟩ | ⟨rfl, same⟩
    · simp only [Function.update_of_ne (old below)]
      exact filled.holds.dead here
    · cases same
  · intro c below
    simp only [List.length_append, List.length_singleton, lastBelow_succ, Function.update_self]
    by_cases same : c = b
    · subst same
      simp
    · rw [Function.update_of_ne same, if_neg (Ne.symm same), homeBelow c _ (Nat.le_refl _)]
      exact chained.bucket c below
  · intro e below
    simp only [List.length_append, List.length_singleton] at below
    rcases Nat.lt_succ_iff_lt_or_eq.mp below with below | rfl
    · simp only [Function.update_of_ne (old below)]
      rw [homeBelow _ _ (by omega)]
      exact chained.next e below
    · simp only [Function.update_self]
      rw [homeBelow _ _ (Nat.le_refl _)]
      exact chained.bucket b inside
  · intro e k' x' here
    rcases at' here with ⟨here, below⟩ | ⟨rfl, same⟩
    · rw [Function.update_of_ne (old below)]
      exact homes here
    · simp only [Option.some.injEq, Prod.mk.injEq] at same
      rw [Function.update_self, same.1, hb]

/-- Another content of one entry. A key may only be replaced by one with the same hash. -/
theorem Filled.set {e : Nat} {s : Slot α} {k x : JSTaggedValue α} (filled : Filled rt v slots)
    (content : s = some (k, x) ∧ k ≠ .hole ∨ s = none ∧ k = .hole)
    (sameHash : ∀ k' x', s = some (k, x) → slots[e]? = some (some (k', x')) → rt.hash k = rt.hash k')
    (live : s = some (k, x) → ∃ k' x', slots[e]? = some (some (k', x'))) :
    Filled rt { v with key := Function.update v.key e k, value := Function.update v.value e x }
      (slots.set e s) := by
  obtain ⟨home, chained, homes⟩ := filled.chained
  have at' {f : Nat} {s' : Slot α} (here : (slots.set e s)[f]? = some s') :
      f ≠ e ∧ slots[f]? = some s' ∨ f = e ∧ s' = s := by
    rw [List.getElem?_set] at here
    split_ifs at here with same
    · exact .inr ⟨same.symm, by simpa using here.symm⟩
    · exact .inl ⟨Ne.symm same, here⟩
  refine ⟨filled.room, by simpa using filled.fits, ⟨?_, ?_⟩, home, ⟨?_, ?_⟩, ?_⟩
  · intro f k' x' here
    rcases at' here with ⟨other, here⟩ | ⟨rfl, same⟩
    · simp only [Function.update_of_ne other]
      exact filled.holds.live here
    · rcases content with ⟨rfl, isKey⟩ | ⟨rfl, -⟩
      · simp only [Option.some.injEq, Prod.mk.injEq] at same
        simp only [Function.update_self, same, ne_eq, true_and]
        exact isKey
      · cases same
  · intro f here
    rcases at' here with ⟨other, here⟩ | ⟨rfl, same⟩
    · simp only [Function.update_of_ne other]
      exact filled.holds.dead here
    · rcases content with ⟨rfl, -⟩ | ⟨rfl, hole⟩
      · cases same
      · simp only [Function.update_self, hole]
  · simpa using chained.bucket
  · simpa using chained.next
  · intro f k' x' here
    rcases at' here with ⟨other, here⟩ | ⟨rfl, same⟩
    · exact homes here
    · rcases content with ⟨rfl, -⟩ | ⟨rfl, -⟩
      · simp only [Option.some.injEq, Prod.mk.injEq] at same
        obtain ⟨k0, x0, before⟩ := live rfl
        rw [homes before, same.1, sameHash k0 x0 rfl before]
      · cases same

end Filled

end LinkedHash

end ArkRuntime
