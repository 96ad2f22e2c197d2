import Mathlib.Data.Nat.Digits.Defs

/-!
# Numbers as lists of digits

A `DigitSystem` is a type of digits that stand for the numbers below a base. A list of digits, the
lowest first, has a `value`, which is Mathlib's `Nat.ofDigits`. The lemmas are those that programs
on digit arrays are proved with: the value of the digits below an index while they are written one
after the other (`value_take_set`), the value after one digit was replaced (`value_set`), the order
of two values read off their highest different digit (`value_lt_of_digit_lt`), and the bits of a
value (`testBit_value`).
-/

namespace ArkRuntime

/-- Digits of type `α`, read as numbers below `base`. -/
structure DigitSystem (α : Type*) where
  base : Nat
  weight : α → Nat
  one_lt_base : 1 < base
  weight_lt : ∀ d, weight d < base

namespace DigitSystem

variable {α : Type*} (D : DigitSystem α) {ds xs ys : List α} {d old x y : α} {i n : Nat}

/-- The number that the digits `ds` denote. -/
def value (ds : List α) : Nat := Nat.ofDigits D.base (ds.map D.weight)

theorem base_pos : 0 < D.base := Nat.lt_trans Nat.zero_lt_one D.one_lt_base

theorem base_pow_pos (n : Nat) : 0 < D.base ^ n := Nat.pow_pos D.base_pos

@[simp] theorem value_nil : D.value [] = 0 := rfl

theorem value_cons (d : α) (ds : List α) :
    D.value (d :: ds) = D.weight d + D.base * D.value ds := rfl

@[simp] theorem value_singleton (d : α) : D.value [d] = D.weight d := by
  simp [value]

theorem value_append (xs ys : List α) :
    D.value (xs ++ ys) = D.value xs + D.base ^ xs.length * D.value ys := by
  simp only [value, List.map_append, Nat.ofDigits_append, List.length_map]

theorem value_replicate (zero : D.weight d = 0) (n : Nat) : D.value (List.replicate n d) = 0 := by
  simp only [value, List.map_replicate, zero, Nat.ofDigits_replicate_zero]

theorem map_weight_lt (ds : List α) : ∀ w ∈ ds.map D.weight, w < D.base := by
  intro w mem
  obtain ⟨d, _, rfl⟩ := List.mem_map.mp mem
  exact D.weight_lt d

theorem value_lt (ds : List α) : D.value ds < D.base ^ ds.length := by
  have below := Nat.ofDigits_lt_base_pow_length D.one_lt_base (D.map_weight_lt ds)
  rwa [List.length_map] at below

theorem value_div_pow (ds : List α) (i : Nat) :
    D.value ds / D.base ^ i = D.value (ds.drop i) := by
  rw [value, Nat.ofDigits_div_pow_eq_ofDigits_drop i D.base_pos _ (D.map_weight_lt ds),
    value, List.map_drop]

theorem value_mod_pow (ds : List α) (i : Nat) :
    D.value ds % D.base ^ i = D.value (ds.take i) := by
  rw [value, Nat.ofDigits_mod_pow_eq_ofDigits_take i D.base_pos _ (D.map_weight_lt ds),
    value, List.map_take]

theorem value_split (ds : List α) (i : Nat) :
    D.value ds = D.value (ds.take i) + D.base ^ i * D.value (ds.drop i) := by
  rw [← value_mod_pow, ← value_div_pow, Nat.mod_add_div]

/-! ## Writing digits -/

theorem value_take_succ (read : ds[i]? = some d) :
    D.value (ds.take (i + 1)) = D.value (ds.take i) + D.base ^ i * D.weight d := by
  obtain ⟨inside, rfl⟩ := List.getElem?_eq_some_iff.mp read
  rw [List.take_add_one, read, value_append, List.length_take, Nat.min_eq_left (by omega)]
  simp

/-- The digits below `i`, and a digit written on top of them. -/
theorem value_take_set (d : α) (inside : i < ds.length) :
    D.value ((ds.set i d).take (i + 1)) = D.value (ds.take i) + D.base ^ i * D.weight d := by
  have read : (ds.set i d)[i]? = some d := by simp [inside]
  rw [D.value_take_succ read, List.take_set_of_le (Nat.le_refl i)]

/-- A digit in the middle is replaced. -/
theorem value_set (d : α) (read : ds[i]? = some old) :
    D.value (ds.set i d) + D.base ^ i * D.weight old = D.value ds + D.base ^ i * D.weight d := by
  obtain ⟨inside, -⟩ := List.getElem?_eq_some_iff.mp read
  have after := D.value_split (ds.set i d) (i + 1)
  have before := D.value_split ds (i + 1)
  rw [D.value_take_set d inside, List.drop_set_of_lt (show i < i + 1 by omega)] at after
  rw [D.value_take_succ read] at before
  omega

/-! ## Order -/

theorem pow_le_value (read : ds[i]? = some d) (nonzero : 0 < D.weight d) :
    D.base ^ i ≤ D.value ds := by
  have split := D.value_split ds (i + 1)
  rw [D.value_take_succ read] at split
  have : D.base ^ i * 1 ≤ D.base ^ i * D.weight d := Nat.mul_le_mul_left _ nonzero
  omega

/-- The highest different digit decides. -/
theorem value_lt_of_digit_lt (readX : xs[i]? = some x) (readY : ys[i]? = some y)
    (above : xs.drop (i + 1) = ys.drop (i + 1)) (less : D.weight x < D.weight y) :
    D.value xs < D.value ys := by
  have splitX := D.value_split xs (i + 1)
  have splitY := D.value_split ys (i + 1)
  rw [D.value_take_succ readX, above] at splitX
  rw [D.value_take_succ readY] at splitY
  have inside : i < xs.length := (List.getElem?_eq_some_iff.mp readX).1
  have low : D.value (xs.take i) < D.base ^ i := by
    have := D.value_lt (xs.take i)
    rwa [List.length_take, Nat.min_eq_left (by omega)] at this
  have step : D.base ^ i * (D.weight x + 1) ≤ D.base ^ i * D.weight y :=
    Nat.mul_le_mul_left _ less
  rw [Nat.mul_add, Nat.mul_one] at step
  omega

theorem value_lt_of_length_lt (shorter : xs.length < ys.length)
    (top : ys[ys.length - 1]? = some y) (nonzero : 0 < D.weight y) :
    D.value xs < D.value ys := by
  calc D.value xs < D.base ^ xs.length := D.value_lt xs
    _ ≤ D.base ^ (ys.length - 1) := Nat.pow_le_pow_right D.base_pos (by omega)
    _ ≤ D.value ys := D.pow_le_value top nonzero

theorem eq_of_value_eq (injective : Function.Injective D.weight) (sameLength : xs.length = ys.length)
    (same : D.value xs = D.value ys) : xs = ys := by
  apply (List.map_inj_right fun _ _ sameWeight => injective sameWeight).mp
  apply Nat.ofDigits_inj_of_len_eq D.one_lt_base _ (D.map_weight_lt xs) (D.map_weight_lt ys) same
  simpa using sameLength

/-! ## Digits and bits of a value -/

/-- The weight of the digit at `i`; the digits above the list are zero. -/
def weightAt (ds : List α) (i : Nat) : Nat := ((ds[i]?).map D.weight).getD 0

theorem weightAt_eq (read : ds[i]? = some d) : D.weightAt ds i = D.weight d := by
  simp [weightAt, read]

theorem weightAt_of_length_le (outside : ds.length ≤ i) : D.weightAt ds i = 0 := by
  simp [weightAt, List.getElem?_eq_none outside]

theorem value_div_mod (ds : List α) (i : Nat) :
    D.value ds / D.base ^ i % D.base = D.weightAt ds i := by
  rw [value_div_pow]
  rcases read : ds[i]? with _ | d
  · rw [List.drop_eq_nil_of_le (List.getElem?_eq_none_iff.mp read)]
    simp [weightAt, read]
  · obtain ⟨inside, rfl⟩ := List.getElem?_eq_some_iff.mp read
    rw [List.drop_eq_getElem_cons inside, value_cons, Nat.add_mul_mod_self_left,
      Nat.mod_eq_of_lt (D.weight_lt _), D.weightAt_eq read]

theorem testBit_value {width : Nat} (binary : D.base = 2 ^ width) (ds : List α) (i : Nat) :
    (D.value ds).testBit i = (D.weightAt ds (i / width)).testBit (i % width) := by
  have positive : 0 < width := by
    rcases width with _ | width
    · have := D.one_lt_base
      omega
    · omega
  have inside : i % width < width := Nat.mod_lt i positive
  rw [← value_div_mod, binary, Nat.testBit_mod_two_pow, ← Nat.pow_mul, Nat.testBit_div_two_pow]
  simp only [inside, decide_true, Bool.true_and]
  rw [Nat.add_comm, Nat.div_add_mod]

/-- An operation on the bits, done digit by digit. -/
theorem value_bitwise {width : Nat} (binary : D.base = 2 ^ width) {f : Nat → Nat → Nat}
    {g : Bool → Bool → Bool} (bits : ∀ a b i, (f a b).testBit i = g (a.testBit i) (b.testBit i))
    (digitwise : ∀ k, D.weightAt ds k = f (D.weightAt xs k) (D.weightAt ys k)) :
    D.value ds = f (D.value xs) (D.value ys) := by
  apply Nat.eq_of_testBit_eq
  intro i
  rw [bits, D.testBit_value binary ds, D.testBit_value binary xs, D.testBit_value binary ys,
    digitwise, bits]

end DigitSystem

end ArkRuntime
