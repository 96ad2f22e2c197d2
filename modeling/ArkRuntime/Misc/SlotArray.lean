import Mathlib.Data.List.InsertIdx

/-!
# Arrays with checked accesses

An array is the list of its slots. Reading a slot is `a[i]?` and writing one is `store`; both are
`none` outside the array, so a computation that returns has made no access outside. The loops that
move a block of slots by one or more places are given with the content they leave behind, and with
what they make of the slots in use: the first `n` slots of an array that has more.
-/

namespace ArkRuntime

variable {β : Type*} {a : List β}

/-- The write `a[i] = v`. -/
def store (a : List β) (i : Nat) (v : β) : Option (List β) :=
  if i < a.length then some (a.set i v) else none

theorem store_of_lt {i : Nat} (inside : i < a.length) (v : β) : store a i v = some (a.set i v) :=
  if_pos inside

/-- `n` slots, the last of them at `idx`, move one place up, the last one first. -/
def shiftUp : Nat → Nat → List β → Option (List β)
  | 0, _, a => some a
  | n + 1, idx, a => do
      let v ← a[idx]?
      let a ← store a (idx + 1) v
      shiftUp n (idx - 1) a

theorem shiftUp_spec (n idx : Nat) (a : List β) (block : n ≤ idx + 1) (inside : idx + 1 < a.length) :
    ∃ a', shiftUp n idx a = some a' ∧ a'.length = a.length ∧
      ∀ j, a'[j]? = if idx + 1 - n < j ∧ j ≤ idx + 1 then a[j - 1]? else a[j]? := by
  induction n generalizing idx a with
  | zero =>
    refine ⟨a, rfl, rfl, fun j => ?_⟩
    rw [if_neg (by omega)]
  | succ n ih =>
    have read : a[idx]? = some (a.get ⟨idx, by omega⟩) := List.getElem?_eq_getElem (by omega)
    rcases Nat.eq_zero_or_pos idx with rfl | some
    · obtain rfl : n = 0 := by omega
      refine ⟨a.set 1 (a.get ⟨0, by omega⟩), ?_, by simp, fun j => ?_⟩
      · simp only [shiftUp, read, store_of_lt inside]
        rfl
      · rw [List.getElem?_set]
        by_cases here : 1 = j
        · subst here
          rw [if_pos rfl, if_pos inside, if_pos (by omega), read]
        · rw [if_neg here, if_neg (by omega)]
    · obtain ⟨a', run, length, slots⟩ := ih (idx - 1) (a.set (idx + 1) (a.get ⟨idx, by omega⟩))
        (by omega) (by rw [List.length_set]; omega)
      refine ⟨a', ?_, by rw [length, List.length_set], fun j => ?_⟩
      · simp only [shiftUp, read, store_of_lt inside]
        exact run
      · rw [slots j]
        by_cases moved : idx - 1 + 1 - n < j ∧ j ≤ idx - 1 + 1
        · rw [if_pos moved, List.getElem?_set_ne (by omega), if_pos (by omega)]
        · rw [if_neg moved]
          by_cases last : idx + 1 = j
          · subst last
            rw [List.getElem?_set_self (by omega), if_pos (by omega), Nat.add_sub_cancel, read]
          · rw [List.getElem?_set_ne last, if_neg (by omega)]

/-- The slots in use after a value was put between them: the slots behind it moved up before. -/
theorem take_set_of_shifted {a' : List β} {p n : Nat} (place : p ≤ n) (inside : n < a.length)
    (length : a'.length = a.length)
    (slots : ∀ j, a'[j]? = if p < j ∧ j ≤ n then a[j - 1]? else a[j]?) (x : β) :
    (a'.set p x).take (n + 1) = (a.take n).insertIdx p x := by
  apply List.ext_getElem?
  intro j
  rw [List.getElem?_insertIdx, List.length_take, List.getElem?_take, List.getElem?_set, length]
  rcases Nat.lt_trichotomy j p with less | rfl | more
  · rw [if_pos (by omega), if_neg (by omega), slots j, if_neg (by omega), if_pos less,
      List.getElem?_take_of_lt (by omega)]
  · rw [if_pos (by omega), if_pos rfl, if_pos (by omega), if_neg (by omega), if_pos rfl,
      if_pos (by omega)]
  · rw [if_neg (show ¬ p = j by omega), if_neg (show ¬ j < p by omega), if_neg (show ¬ j = p by omega),
      slots j, List.getElem?_take]
    by_cases used : j ≤ n
    · rw [if_pos (by omega), if_pos ⟨more, used⟩, if_pos (by omega)]
    · rw [if_neg (by omega), if_neg (by omega)]

/-- `n` slots from `src` on are copied to `dst` and the slots behind it, the first one first. -/
def copyDown : Nat → Nat → Nat → List β → Option (List β)
  | 0, _, _, a => some a
  | n + 1, src, dst, a => do
      let v ← a[src]?
      let a ← store a dst v
      copyDown n (src + 1) (dst + 1) a

theorem copyDown_spec (n src dst : Nat) (a : List β) (down : dst ≤ src) (inside : src + n ≤ a.length) :
    ∃ a', copyDown n src dst a = some a' ∧ a'.length = a.length ∧
      ∀ j, a'[j]? = if dst ≤ j ∧ j < dst + n then a[j - dst + src]? else a[j]? := by
  induction n generalizing src dst a with
  | zero =>
    refine ⟨a, rfl, rfl, fun j => ?_⟩
    rw [if_neg (by omega)]
  | succ n ih =>
    have read : a[src]? = some (a.get ⟨src, by omega⟩) := List.getElem?_eq_getElem (by omega)
    obtain ⟨a', run, length, slots⟩ := ih (src + 1) (dst + 1) (a.set dst (a.get ⟨src, by omega⟩))
      (by omega) (by rw [List.length_set]; omega)
    refine ⟨a', ?_, by rw [length, List.length_set], fun j => ?_⟩
    · simp only [copyDown, read, store_of_lt (show dst < a.length by omega)]
      exact run
    · rw [slots j]
      by_cases moved : dst + 1 ≤ j ∧ j < dst + 1 + n
      · rw [if_pos moved, if_pos (by omega), List.getElem?_set_ne (by omega)]
        congr 1
        omega
      · rw [if_neg moved]
        by_cases first : dst = j
        · subst first
          rw [List.getElem?_set_self (by omega), if_pos (by omega), Nat.sub_self, Nat.zero_add, read]
        · rw [List.getElem?_set_ne first, if_neg (by omega)]

/-- `n` slots from `dst` on are set to `v`. -/
def fill (v : β) : Nat → Nat → List β → Option (List β)
  | 0, _, a => some a
  | n + 1, dst, a => do
      let a ← store a dst v
      fill v n (dst + 1) a

theorem fill_spec (v : β) (n dst : Nat) (a : List β) (inside : dst + n ≤ a.length) :
    ∃ a', fill v n dst a = some a' ∧ a'.length = a.length ∧
      ∀ j, j < dst ∨ dst + n ≤ j → a'[j]? = a[j]? := by
  induction n generalizing dst a with
  | zero => exact ⟨a, rfl, rfl, fun j _ => rfl⟩
  | succ n ih =>
    obtain ⟨a', run, length, slots⟩ := ih (dst + 1) (a.set dst v) (by rw [List.length_set]; omega)
    refine ⟨a', ?_, by rw [length, List.length_set], fun j apart => ?_⟩
    · simp only [fill, store_of_lt (show dst < a.length by omega)]
      exact run
    · rw [slots j (by omega), List.getElem?_set_ne (by omega)]

/-- The slots in use after one of them was taken out: the slots behind it moved down. -/
theorem take_of_moved_down {a' : List β} {p n : Nat} (place : p < n)
    (slots : ∀ j < n - 1, a'[j]? = if p ≤ j then a[j + 1]? else a[j]?) :
    a'.take (n - 1) = (a.take n).eraseIdx p := by
  apply List.ext_getElem?
  intro j
  rw [List.getElem?_eraseIdx, List.getElem?_take, List.getElem?_take, List.getElem?_take]
  by_cases used : j < n - 1
  · rw [if_pos used, slots j used]
    by_cases behind : p ≤ j
    · rw [if_pos behind, if_neg (by omega), if_pos (by omega)]
    · rw [if_neg behind, if_pos (by omega), if_pos (by omega)]
  · rw [if_neg used, if_neg (by omega), if_neg (by omega)]

/-! ## Sorted slots -/

theorem insertIdx_eq_append {l : List β} {p : Nat} (place : p ≤ l.length) (x : β) :
    l.insertIdx p x = l.take p ++ x :: l.drop p := by
  induction p generalizing l with
  | zero => rfl
  | succ p ih =>
    cases l with
    | nil => exact absurd place (by simp)
    | cons y l =>
      rw [List.insertIdx_succ_cons, ih (Nat.le_of_succ_le_succ place)]
      rfl

/-- A value goes between the slots without breaking their order. -/
theorem pairwise_insertIdx {R : β → β → Prop} {l : List β} {p : Nat} (place : p ≤ l.length) {x : β}
    (sorted : l.Pairwise R) (before : ∀ i < p, ∀ y, l[i]? = some y → R y x)
    (behind : ∀ i, p ≤ i → ∀ y, l[i]? = some y → R x y) : (l.insertIdx p x).Pairwise R := by
  rw [insertIdx_eq_append place]
  rw [← List.take_append_drop p l, List.pairwise_append] at sorted
  obtain ⟨front, back, across⟩ := sorted
  rw [List.pairwise_append, List.pairwise_cons]
  refine ⟨front, ⟨fun y mem => ?_, back⟩, fun y first z second => ?_⟩
  · obtain ⟨i, here⟩ := List.getElem?_of_mem mem
    rw [List.getElem?_drop] at here
    exact behind (p + i) (Nat.le_add_right p i) y here
  · rcases List.mem_cons.mp second with rfl | second
    · obtain ⟨i, here⟩ := List.getElem?_of_mem first
      rw [List.getElem?_take] at here
      split_ifs at here with less
      exact before i less y here
    · exact across y first z second

end ArkRuntime
