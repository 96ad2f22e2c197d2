import Mathlib.Data.Nat.ModEq

/-!
# Ring buffers

The content of a ring of `cap` slots, of which `n` are in use from the slot `front` on.
-/

namespace ArkRuntime

variable {β : Type*} {slot slot' : Nat → β} {cap cap' front n : Nat}

def ringContent (slot : Nat → β) (cap front n : Nat) : List β :=
  (List.range n).map fun i => slot ((front + i) % cap)

@[simp] theorem length_ringContent : (ringContent slot cap front n).length = n := by
  simp [ringContent]

theorem getElem?_ringContent {i : Nat} (below : i < n) :
    (ringContent slot cap front n)[i]? = some (slot ((front + i) % cap)) := by
  simp [ringContent, below]

/-- Different places of a ring are different slots. -/
theorem ring_slot_inj {i j : Nat} (hi : i < cap) (hj : j < cap)
    (same : (front + i) % cap = (front + j) % cap) : i = j := by
  have shifted : i % cap = j % cap := Nat.ModEq.add_left_cancel' front same
  rwa [Nat.mod_eq_of_lt hi, Nat.mod_eq_of_lt hj] at shifted

/-- After some slots one is back at the front only if one went all the way round. -/
theorem ring_round {i : Nat} (inside : front < cap) (some : 0 < i) (le : i ≤ cap) :
    (front + i) % cap = front ↔ i = cap := by
  constructor
  · intro back
    rcases Nat.lt_or_eq_of_le le with less | same
    · have here : (front + 0) % cap = front := Nat.mod_eq_of_lt inside
      have := ring_slot_inj less (by omega) (back.trans here.symm)
      omega
    · exact same
  · intro same
    rw [same, Nat.add_mod_right, Nat.mod_eq_of_lt inside]

theorem ringContent_congr (same : ∀ i < n, slot ((front + i) % cap) = slot' ((front + i) % cap)) :
    ringContent slot cap front n = ringContent slot' cap front n :=
  List.map_congr_left fun i mem => same i (List.mem_range.mp mem)

/-- A value in the slot behind the last one. -/
theorem ringContent_push (free : n < cap) (v : β) :
    ringContent (Function.update slot ((front + n) % cap) v) cap front (n + 1) =
      ringContent slot cap front n ++ [v] := by
  rw [ringContent, List.range_succ, List.map_append, List.map_singleton, Function.update_self]
  congr 1
  refine List.map_congr_left fun i mem => Function.update_of_ne (fun same => ?_) _ _
  have below := List.mem_range.mp mem
  have := ring_slot_inj (by omega) free same
  omega

/-- The first slot leaves the ring. -/
theorem ringContent_pop (inside : front < cap) :
    ringContent slot cap front (n + 1) =
      slot front :: ringContent slot cap ((front + 1) % cap) n := by
  rw [ringContent, List.range_succ_eq_map, List.map_cons, List.map_map, Nat.add_zero,
    Nat.mod_eq_of_lt inside]
  congr 1
  refine List.map_congr_left fun i _ => ?_
  simp only [Function.comp, Nat.succ_eq_add_one, Nat.mod_add_mod]
  rw [show front + (i + 1) = front + 1 + i by omega]

/-- A slot outside the ring may change. -/
theorem ringContent_update (v : β) {k : Nat} (outside : ∀ i < n, (front + i) % cap ≠ k) :
    ringContent (Function.update slot k v) cap front n = ringContent slot cap front n :=
  ringContent_congr fun i below => Function.update_of_ne (outside i below) _ _

/-- A value in the slot before the first one. -/
theorem ringContent_pushFront {before : Nat} (inside : before < cap) (next : (before + 1) % cap = front)
    (free : n < cap) (v : β) :
    ringContent (Function.update slot before v) cap before (n + 1) =
      v :: ringContent slot cap front n := by
  rw [ringContent_pop inside, Function.update_self, next]
  congr 1
  refine ringContent_update v fun i below same => ?_
  have here : (before + 0) % cap = before := Nat.mod_eq_of_lt inside
  rw [← next, Nat.mod_add_mod, Nat.add_assoc] at same
  have again := ring_slot_inj (by omega) (by omega) (same.trans here.symm)
  omega

/-- The last slot leaves the ring. -/
theorem ringContent_popLast : ringContent slot cap front (n + 1) =
    ringContent slot cap front n ++ [slot ((front + n) % cap)] := by
  rw [ringContent, List.range_succ, List.map_append, List.map_singleton]
  rfl

/-- A slot of the ring gets another value. -/
theorem ringContent_set {i : Nat} (below : i < n) (fits : n ≤ cap) (v : β) :
    ringContent (Function.update slot ((front + i) % cap) v) cap front n =
      (ringContent slot cap front n).set i v := by
  refine List.ext_getElem (by simp) fun j less _ => ?_
  rw [length_ringContent] at less
  rw [List.getElem_set]
  simp only [ringContent, List.getElem_map, List.getElem_range]
  by_cases same : i = j
  · rw [if_pos same, same, Function.update_self]
  · rw [if_neg same, Function.update_of_ne]
    exact fun slots => same (ring_slot_inj (by omega) (by omega) slots.symm)

/-- The content copied to the start of another ring. -/
theorem ringContent_copy (fits : n ≤ cap')
    (copied : ∀ i < n, slot' i = slot ((front + i) % cap)) :
    ringContent slot' cap' 0 n = ringContent slot cap front n := by
  refine List.map_congr_left fun i mem => ?_
  have below := List.mem_range.mp mem
  rw [Nat.zero_add, Nat.mod_eq_of_lt (by omega), copied i below]

/-! ## Indices of 32 bits

A ring of at most `2 ^ 27` slots: neither the slot after another one nor the capacity after a growth
by half wraps around. -/

theorem toNat_next {i c : UInt32} (below : i.toNat < c.toNat) (small : c.toNat ≤ 2 ^ 27) :
    ((i + 1) % c).toNat = (i.toNat + 1) % c.toNat := by
  have one : (1 : UInt32).toNat = 1 := rfl
  rw [UInt32.toNat_mod, UInt32.toNat_add, one, Nat.mod_eq_of_lt (show i.toNat + 1 < 2 ^ 32 by omega)]

theorem toNat_newCapacity {c : UInt32} (small : c.toNat ≤ 2 ^ 27) :
    (c + (c >>> 1)).toNat = c.toNat + c.toNat / 2 := by
  have shifted : (c >>> 1).toNat = c.toNat / 2 := by
    rw [UInt32.toNat_shiftRight]
    exact Nat.shiftRight_eq_div_pow _ _
  rw [UInt32.toNat_add, shifted]
  exact Nat.mod_eq_of_lt (by omega)

theorem toNat_previous {i c : UInt32} (below : i.toNat < c.toNat) (small : c.toNat ≤ 2 ^ 27) :
    ((i + c - 1) % c).toNat = (i.toNat + c.toNat - 1) % c.toNat := by
  have one : (1 : UInt32).toNat = 1 := rfl
  have sum : (i + c).toNat = i.toNat + c.toNat := by
    rw [UInt32.toNat_add]
    exact Nat.mod_eq_of_lt (by omega)
  rw [UInt32.toNat_mod, UInt32.toNat_sub_of_le _ _ (by rw [UInt32.le_iff_toNat_le, one, sum]; omega), one,
    sum]

/-- The way from one slot to another, which the unsigned arithmetic finds across the end too. -/
theorem toNat_distance {first last c : UInt32} {n : Nat} (inside : first.toNat < c.toNat)
    (free : n < c.toNat) (small : c.toNat ≤ 2 ^ 27)
    (ends : last.toNat = (first.toNat + n) % c.toNat) :
    ((last - first + c) % c).toNat = n := by
  have bound := first.toNat_lt
  rw [UInt32.toNat_mod, UInt32.toNat_add, UInt32.toNat_sub, ends]
  rcases Nat.lt_or_ge (first.toNat + n) c.toNat with less | wraps
  · rw [Nat.mod_eq_of_lt less]
    have same : (2 ^ 32 - first.toNat + (first.toNat + n)) % 2 ^ 32 = n := by omega
    rw [same, Nat.mod_eq_of_lt (show n + c.toNat < 2 ^ 32 by omega), Nat.add_mod_right,
      Nat.mod_eq_of_lt free]
  · rw [Nat.mod_eq_sub_mod wraps, Nat.mod_eq_of_lt (show first.toNat + n - c.toNat < c.toNat by omega)]
    have same : ((2 ^ 32 - first.toNat + (first.toNat + n - c.toNat)) % 2 ^ 32 + c.toNat) % 2 ^ 32 = n := by
      omega
    rw [same, Nat.mod_eq_of_lt free]

theorem toNat_doubled {c : UInt32} (small : c.toNat ≤ 2 ^ 27) : (c <<< 1).toNat = 2 * c.toNat := by
  have one : (1 : UInt32).toNat % 32 = 1 := rfl
  rw [UInt32.toNat_shiftLeft, one, Nat.shiftLeft_eq, Nat.mod_eq_of_lt (by omega)]
  omega

end ArkRuntime
