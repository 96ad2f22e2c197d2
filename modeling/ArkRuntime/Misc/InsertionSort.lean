import ArkRuntime.Misc.Loop
import ArkRuntime.Misc.Sorting

/-!
# Binary insertion

The rounds of a sort by insertion in place: a binary search for the place of the next value among the sorted
ones, and a shift of the values from there on. The values are read and written by the loops that use this;
the loop of the search is any `step` that goes on as the order of the middle value and the next one says.
-/

namespace ArkRuntime

variable {β ρ : Type*} {le : β → β → Prop} {values : List β} {v x : β} {m i endIndex : Nat}

/-- The values outside of `begin, ..., end - 1` are on their sides of `v`. -/
structure Narrows (le : β → β → Prop) (values : List β) (v : β) (i : Nat) (s : Nat × Nat) : Prop where
  ordered : s.1 ≤ s.2
  inside : s.2 ≤ i
  low : ∀ m < s.1, ∀ x, values[m]? = some x → le x v
  high : ∀ m, s.2 ≤ m → m < i → ∀ x, values[m]? = some x → ¬ le x v

/-- The values below the place `i` are in order. -/
def InOrderUpTo (le : β → β → Prop) (values : List β) (i : Nat) : Prop :=
  ∀ m n x y, m ≤ n → n < i → values[m]? = some x → values[n]? = some y → le x y

theorem SortedUpTo.inOrder {old : List β} (order : TotalPreorder le) (sorted : SortedUpTo le old i values)
    (inside : i ≤ old.length) : InOrderUpTo le values i := fun _ _ _ _ before below =>
  sorted.le_of_le order inside before below

theorem narrows_of_le (order : TotalPreorder le) (inOrder : InOrderUpTo le values i) {s : Nat × Nat}
    (narrows : Narrows le values v i s) (more : s.1 < s.2) (here : values[(s.1 + s.2) / 2]? = some x)
    (less : le x v) : Narrows le values v i ((s.1 + s.2) / 2 + 1, s.2) := by
  have bound := narrows.inside
  refine ⟨by simp only; omega, bound, ?_, narrows.high⟩
  intro m before y read
  exact order.trans _ _ _ (inOrder m _ y x (Nat.le_of_lt_succ before) (by omega) read here) less

theorem narrows_of_not_le (order : TotalPreorder le) (inOrder : InOrderUpTo le values i) {s : Nat × Nat}
    (narrows : Narrows le values v i s) (more : s.1 < s.2) (here : values[(s.1 + s.2) / 2]? = some x)
    (greater : ¬ le x v) : Narrows le values v i (s.1, (s.1 + s.2) / 2) := by
  have bound := narrows.inside
  refine ⟨by simp only; omega, by simp only; omega, narrows.low, ?_⟩
  intro m behind below y read less
  exact greater (order.trans _ _ _ (inOrder _ m x y behind below here read) less)

/-- The binary search finds the place behind the values that are at most `v`. -/
theorem insertionSearch_spec {step : Nat × Nat → (Nat × Nat) ⊕ ρ} {done : Nat → ρ}
    (order : TotalPreorder le) (inOrder : InOrderUpTo le values i) (inside : i ≤ values.length)
    (stop : ∀ s, ¬ s.1 < s.2 → step s = .inr (done s.2))
    (again : ∀ s x, s.1 < s.2 → s.2 ≤ i → values[(s.1 + s.2) / 2]? = some x →
      (le x v ∧ step s = .inl ((s.1 + s.2) / 2 + 1, s.2)) ∨ (¬ le x v ∧ step s = .inl (s.1, (s.1 + s.2) / 2))) :
    ∃ endIndex, iter step (i + 1) (0, i) = some (done endIndex) ∧
      Narrows le values v i (endIndex, endIndex) := by
  have round : ∀ n s, n = s.2 - s.1 ∧ Narrows le values v i s →
      (∃ s' m, step s = .inl s' ∧ m < n ∧ m = s'.2 - s'.1 ∧ Narrows le values v i s') ∨
      (∃ result, step s = .inr result ∧
        ∃ endIndex, result = done endIndex ∧ Narrows le values v i (endIndex, endIndex)) := by
    rintro n s ⟨rfl, narrows⟩
    by_cases more : s.1 < s.2
    · have bound := narrows.inside
      have here := List.getElem?_eq_getElem (l := values) (i := (s.1 + s.2) / 2) (by omega)
      rcases again s _ more bound here with ⟨less, next⟩ | ⟨greater, next⟩
      · exact .inl ⟨_, _, next, by simp only; omega, rfl, narrows_of_le order inOrder narrows more here less⟩
      · exact .inl ⟨_, _, next, by simp only; omega, rfl,
          narrows_of_not_le order inOrder narrows more here greater⟩
    · have same : s.1 = s.2 := Nat.le_antisymm narrows.ordered (Nat.not_lt.mp more)
      refine .inr ⟨_, stop s more, s.2, rfl, ?_⟩
      rwa [show s = (s.2, s.2) from Prod.ext same rfl] at narrows
  have start : Narrows le values v i (0, i) :=
    ⟨Nat.zero_le i, Nat.le_refl i, fun m no => absurd no (Nat.not_lt_zero m),
      fun m behind below => absurd below (Nat.not_lt.mpr behind)⟩
  obtain ⟨result, run, endIndex, rfl, narrows⟩ :=
    iter_spec round (i + 1) i (0, i) ⟨rfl, start⟩ (Nat.lt_succ_self i)
  exact ⟨endIndex, run, narrows⟩

/-- After `k` rounds of the shift the last `k` values below the place `i` are one place up. -/
def Shifted (before values : List β) (i k : Nat) : Prop :=
  ∀ m, values[m]? = if i - k < m ∧ m ≤ i then before[m - 1]? else before[m]?

/-- The places that the shift has not reached are still there. -/
theorem Shifted.inside {before values : List β} {k : Nat}
    (shifted : Shifted before values i k) (low : m ≤ i - k) (inside : m < before.length) :
    m < values.length := by
  by_contra outside
  have read := shifted m
  rw [List.getElem?_eq_none (Nat.not_lt.mp outside), if_neg (by omega),
    List.getElem?_eq_getElem inside] at read
  cases read

theorem shifted_next {before values : List β} {k : Nat}
    (shifted : Shifted before values i k) (more : k < i) (inside : i < before.length)
    (here : values[i - k - 1]? = some x) : Shifted before (values.set (i - k) x) i (k + 1) := by
  have size : i - k < values.length := shifted.inside (Nat.le_refl _) (by omega)
  have source := shifted (i - k - 1)
  rw [here, if_neg (by omega)] at source
  intro m
  rw [List.getElem?_set]
  by_cases place : i - k = m
  · rw [if_pos place, if_pos size, if_pos (by omega), ← place]
    exact source
  · rw [if_neg place, shifted m]
    by_cases above : i - k < m ∧ m ≤ i
    · rw [if_pos above, if_pos (by omega)]
    · rw [if_neg above, if_neg (by omega)]

/-- The value that is written last is in its place. -/
theorem shifted_last {before values : List β} (more : endIndex < i)
    (shifted : Shifted before values i (i - endIndex)) (inside : i < before.length) :
    values.set endIndex v = (before.eraseIdx i).insertIdx endIndex v := by
  apply List.ext_getElem?
  intro m
  have short : endIndex ≤ (before.eraseIdx i).length := by
    rw [List.length_eraseIdx, if_pos inside]
    omega
  have size : endIndex < values.length := shifted.inside (by omega) (by omega)
  rw [List.getElem?_set, List.getElem?_insertIdx]
  rcases Nat.lt_trichotomy m endIndex with less | rfl | greater
  · rw [if_neg (by omega), if_pos less, shifted m, if_neg (by omega),
      List.getElem?_eraseIdx_of_lt (by omega)]
  · rw [if_pos rfl, if_pos size, if_neg (Nat.lt_irrefl m), if_pos rfl, if_pos short]
  · rw [if_neg (by omega), if_neg (by omega), if_neg (by omega), shifted m]
    by_cases below : m ≤ i
    · rw [if_pos (by omega), List.getElem?_eraseIdx_of_lt (by omega)]
    · rw [if_neg (by omega), List.getElem?_eraseIdx_of_ge (by omega), Nat.sub_add_cancel (by omega)]

end ArkRuntime
