import Mathlib.Order.Lattice
import Mathlib.Data.List.TakeWhile

/-!
# Rounding to a table of bounds

A strictly increasing list of bounds cuts a linear order into finitely many
pieces. `floor` and `ceil` round a value outwards, to the nearest bound below
and above; an interval rounded on both sides has one of finitely many shapes.
-/

namespace ArkRuntime.BoundTable

variable {α : Type*} [LinearOrder α] {bounds : List α} {value other bound : α}

/-- The last bound that is not above `value` (the entry before `std::upper_bound`),
    or `value` itself below the whole table. -/
def floor (bounds : List α) (value : α) : α :=
  ((bounds.takeWhile (fun bound => decide (bound ≤ value))).getLast?).getD value

/-- The first bound that is not below `value` (the entry at `std::lower_bound`),
    or `value` itself above the whole table. -/
def ceil (bounds : List α) (value : α) : α :=
  (bounds.find? (fun bound => decide (value ≤ bound))).getD value

theorem floor_le (bounds : List α) (value : α) : floor bounds value ≤ value := by
  unfold floor
  cases last : (bounds.takeWhile (fun bound => decide (bound ≤ value))).getLast? with
  | none => exact le_refl value
  | some bound =>
    have inside := List.mem_of_getLast? last
    simpa using List.mem_takeWhile_imp inside

theorem le_ceil (bounds : List α) (value : α) : value ≤ ceil bounds value := by
  unfold ceil
  cases first : bounds.find? (fun bound => decide (value ≤ bound)) with
  | none => exact le_refl value
  | some bound => simpa using List.find?_some first

/-- What lies above some bound lies above the first one. -/
theorem head_le {head : α} {rest : List α} (sorted : (head :: rest).Pairwise (· < ·))
    (member : bound ∈ head :: rest) (below : bound ≤ value) : head ≤ value := by
  rcases List.mem_cons.1 member with same | later
  · exact same ▸ below
  · exact le_trans (le_of_lt ((List.pairwise_cons.1 sorted).1 bound later)) below

/-- Past its first bound a table rounds down in the rest, with that bound as the default. -/
theorem floor_cons {head : α} {rest : List α} (below : head ≤ value) :
    floor (head :: rest) value =
      ((rest.takeWhile (fun bound => decide (bound ≤ value))).getLast?).getD head := by
  unfold floor
  rw [List.takeWhile_cons_of_pos (by simpa using below), List.getLast?_cons]
  rfl

/-- Rounding down gives the greatest bound below a value: nothing in the table
    lies between the two. -/
theorem le_floor (sorted : bounds.Pairwise (· < ·)) (member : bound ∈ bounds)
    (below : bound ≤ value) : bound ≤ floor bounds value := by
  induction bounds with
  | nil => cases member
  | cons head rest ih =>
    have sortedRest := List.pairwise_cons.1 sorted
    rw [floor_cons (head_le sorted member below)]
    cases last : (rest.takeWhile (fun bound => decide (bound ≤ value))).getLast? with
    | none =>
      rcases List.mem_cons.1 member with same | later
      · exact le_of_eq same
      · -- the rest holds a bound below the value, so it is not skipped at once
        rw [List.getLast?_eq_none_iff] at last
        obtain ⟨second, tail, shape⟩ := List.exists_cons_of_ne_nil (List.ne_nil_of_mem later)
        subst shape
        rw [List.takeWhile_cons_of_pos (by simpa using head_le sortedRest.2 later below)] at last
        cases last
    | some found =>
      have inside := (List.takeWhile_sublist _).mem (List.mem_of_getLast? last)
      rcases List.mem_cons.1 member with same | later
      · rw [same]
        exact le_of_lt (sortedRest.1 found inside)
      · have before := ih sortedRest.2 later
        unfold floor at before
        rwa [last] at before

/-- Rounding up gives the least bound above a value. -/
theorem ceil_le (sorted : bounds.Pairwise (· < ·)) (member : bound ∈ bounds)
    (above : value ≤ bound) : ceil bounds value ≤ bound := by
  unfold ceil
  induction bounds with
  | nil => cases member
  | cons head rest ih =>
    have sortedRest := List.pairwise_cons.1 sorted
    by_cases first : value ≤ head
    · rw [List.find?_cons_of_pos (by simpa using first)]
      rcases List.mem_cons.1 member with same | later
      · simp [same]
      · exact le_of_lt (sortedRest.1 bound later)
    · rw [List.find?_cons_of_neg (by simpa using first)]
      rcases List.mem_cons.1 member with same | later
      · exact absurd (same ▸ above) first
      · exact ih sortedRest.2 later

theorem floor_mem (sorted : bounds.Pairwise (· < ·)) (member : bound ∈ bounds)
    (below : bound ≤ value) : floor bounds value ∈ bounds := by
  obtain ⟨head, rest, shape⟩ := List.exists_cons_of_ne_nil (List.ne_nil_of_mem member)
  subst shape
  rw [floor_cons (head_le sorted member below)]
  cases last : (rest.takeWhile (fun bound => decide (bound ≤ value))).getLast? with
  | none => exact List.mem_cons_self
  | some found =>
    exact List.mem_cons_of_mem head ((List.takeWhile_sublist _).mem (List.mem_of_getLast? last))

theorem ceil_mem (member : bound ∈ bounds) (above : value ≤ bound) :
    ceil bounds value ∈ bounds := by
  unfold ceil
  cases first : bounds.find? (fun bound => decide (value ≤ bound)) with
  | none =>
    have nowhere := List.find?_eq_none.1 first bound member
    exact absurd above (by simpa using nowhere)
  | some found => exact List.mem_of_find?_eq_some first

/-- A bound of the table is its own rounding. -/
theorem floor_of_mem (sorted : bounds.Pairwise (· < ·)) (member : value ∈ bounds) :
    floor bounds value = value :=
  le_antisymm (floor_le bounds value) (le_floor sorted member (le_refl value))

theorem ceil_of_mem (sorted : bounds.Pairwise (· < ·)) (member : value ∈ bounds) :
    ceil bounds value = value :=
  le_antisymm (ceil_le sorted member (le_refl value)) (le_ceil bounds value)

end ArkRuntime.BoundTable
