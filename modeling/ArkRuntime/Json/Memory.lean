import ArkRuntime.Json.Model

/-!
# Reading memory

The parser walks the memory by position, the grammar is about lists of code units. `mem.drop p` is what is left at
a position; a unit is its head, and a loop over characters passes the longest start of it that fits.
-/

namespace ArkRuntime

namespace Json

variable {mem : List Nat}

variable {p c i j stop : Nat} {rest s : List Nat}

theorem unit_eq (left : mem.drop p = c :: rest) : unit mem p = c := by
  rw [unit, List.getD_eq_getElem?_getD, ← List.head?_drop, left]
  rfl

theorem unit_end (left : mem.drop p = []) : unit mem p = 0 := by
  rw [unit, List.getD_eq_getElem?_getD, ← List.head?_drop, left]
  rfl

theorem drop_append (left : mem.drop p = s ++ rest) : mem.drop (p + s.length) = rest := by
  rw [← List.drop_drop, left, List.drop_left]

theorem drop_cons (left : mem.drop p = c :: rest) : mem.drop (p + 1) = rest := by
  rw [← List.drop_drop, left]
  rfl

/-- The memory at a position that is not behind its end. -/
theorem drop_eq_cons (below : p < mem.length) : mem.drop p = unit mem p :: mem.drop (p + 1) := by
  rw [unit, List.getD_eq_getElem?_getD, List.getElem?_eq_getElem below, Option.getD_some]
  exact List.drop_eq_getElem_cons below

theorem lt_length_of_unit (nonzero : unit mem p ≠ 0) : p < mem.length := by
  by_contra no
  exact nonzero (unit_end (List.drop_eq_nil_of_le (Nat.le_of_not_lt no)))

theorem lt_length_of_drop (left : mem.drop p = c :: rest) : p < mem.length := by
  by_contra beyond
  rw [List.drop_eq_nil_of_le (Nat.le_of_not_lt beyond)] at left
  cases left

theorem length_slice (i j : Nat) : (slice mem i j).length = j - i := by
  rw [slice, List.length_map, List.length_range']

theorem slice_self (i : Nat) : slice mem i i = [] := by
  rw [slice, Nat.sub_self]
  rfl

theorem slice_cons (less : i < j) : slice mem i j = unit mem i :: slice mem (i + 1) j := by
  rw [slice, show j - i = j - (i + 1) + 1 by omega, List.range'_succ, List.map_cons]
  rfl

theorem slice_eq_cons (same : slice mem i j = c :: s) : i < j ∧ unit mem i = c ∧ slice mem (i + 1) j = s := by
  have length := congrArg List.length same
  rw [length_slice, List.length_cons] at length
  rw [slice_cons (by omega), List.cons.injEq] at same
  exact ⟨by omega, same⟩

/-- A slice is the start of what is left. -/
theorem slice_eq (left : mem.drop p = s ++ rest) : slice mem p (p + s.length) = s := by
  induction s generalizing p with
  | nil => exact slice_self p
  | cons c s ih =>
    have next := ih (drop_cons left)
    rw [slice_cons (by simp), unit_eq left, List.length_cons, show p + (s.length + 1) = p + 1 + s.length by omega,
      next]

theorem drop_eq_slice (le : i ≤ j) (inside : j ≤ mem.length) : mem.drop i = slice mem i j ++ mem.drop j := by
  induction hk : j - i generalizing i with
  | zero =>
    obtain rfl : i = j := by omega
    rw [slice_self]
    rfl
  | succ k ih =>
    rw [slice_cons (by omega), drop_eq_cons (show i < mem.length by omega), ih (by omega) (by omega)]
    rfl

theorem mem_slice : c ∈ slice mem i j ↔ ∃ k, i ≤ k ∧ k < j ∧ unit mem k = c := by
  rw [slice, List.mem_map]
  constructor
  · rintro ⟨k, inside, rfl⟩
    rw [List.mem_range'_1] at inside
    exact ⟨k, inside.1, by omega, rfl⟩
  · rintro ⟨k, low, high, rfl⟩
    exact ⟨k, List.mem_range'_1.mpr ⟨low, by omega⟩, rfl⟩

/-! ## Loops -/

theorem scanFrom_eq {p : Nat → Bool} {n q : Nat} (le : c ≤ q) (enough : q ≤ c + n)
    (run : ∀ i, c ≤ i → i < q → i ≠ stop ∧ p (unit mem i) = true) (ends : q = stop ∨ p (unit mem q) = false) :
    scanFrom mem p stop n c = q := by
  induction n generalizing c with
  | zero =>
    rw [scanFrom]
    omega
  | succ n ih =>
    rcases Nat.eq_or_lt_of_le le with rfl | less
    · rw [scanFrom, if_neg]
      rintro ⟨other, passes⟩
      rcases ends with same | fails
      · exact other same
      · rw [fails] at passes
        cases passes
    · rw [scanFrom, if_pos (run c (Nat.le_refl c) less)]
      exact ih less (by omega) fun i low high => run i (by omega) high

/-- The loop stops at the first position that is the last one or does not fit. -/
theorem scan_eq {p : Nat → Bool} (zero : p 0 = false) {q : Nat} (le : c ≤ q)
    (run : ∀ i, c ≤ i → i < q → i ≠ stop ∧ p (unit mem i) = true) (ends : q = stop ∨ p (unit mem q) = false) :
    scan mem p stop c = q := by
  refine scanFrom_eq le ?_ run ends
  rcases Nat.eq_or_lt_of_le le with rfl | less
  · omega
  · have last := (run (q - 1) (by omega) (by omega)).2
    have inside : q - 1 < mem.length := lt_length_of_unit fun no => by simp [no, zero] at last
    omega

theorem scanFrom_spec (mem : List Nat) (p : Nat → Bool) (stop n c : Nat) :
    c ≤ scanFrom mem p stop n c ∧ scanFrom mem p stop n c ≤ c + n ∧
      (∀ i, c ≤ i → i < scanFrom mem p stop n c → i ≠ stop ∧ p (unit mem i) = true) ∧
      (scanFrom mem p stop n c = c + n ∨ scanFrom mem p stop n c = stop ∨
        p (unit mem (scanFrom mem p stop n c)) = false) := by
  induction n generalizing c with
  | zero => exact ⟨Nat.le_refl c, Nat.le_refl c, fun i low high => absurd low (by simp only [scanFrom] at high; omega),
      .inl rfl⟩
  | succ n ih =>
    obtain ⟨le, bound, run, ends⟩ := ih (c + 1)
    rw [scanFrom]
    split
    case isTrue passes =>
      refine ⟨by omega, by omega, fun i low high => ?_, ?_⟩
      · rcases Nat.eq_or_lt_of_le low with rfl | less
        · exact passes
        · exact run i less high
      · rcases ends with full | ends
        · exact .inl (by omega)
        · exact .inr ends
    case isFalse fails =>
      refine ⟨Nat.le_refl c, by omega, fun i low high => by omega, .inr ?_⟩
      by_cases same : c = stop
      · exact .inl same
      · exact .inr (by simpa [same] using fails)

/-- What the loop has passed, and where it stands. -/
theorem scan_spec (mem : List Nat) {p : Nat → Bool} (zero : p 0 = false) (stop c : Nat) :
    c ≤ scan mem p stop c ∧ (∀ i, c ≤ i → i < scan mem p stop c → i ≠ stop ∧ p (unit mem i) = true) ∧
      (scan mem p stop c = stop ∨ p (unit mem (scan mem p stop c)) = false) := by
  obtain ⟨le, bound, run, ends⟩ := scanFrom_spec mem p stop (mem.length - c) c
  refine ⟨le, run, ?_⟩
  rcases ends with full | ends
  · right
    have behind : mem.length ≤ scanFrom mem p stop (mem.length - c) c := by omega
    rw [scan, unit_end (List.drop_eq_nil_of_le behind), zero]
  · exact ends

/-- The loop over a start of what is left. -/
theorem scan_append {p : Nat → Bool} (zero : p 0 = false) (left : mem.drop c = s ++ rest)
    (all : ∀ x ∈ s, p x = true) (avoids : ∀ i, c ≤ i → i < c + s.length → i ≠ stop)
    (ends : c + s.length = stop ∨ ∀ x r, rest = x :: r → p x = false) : scan mem p stop c = c + s.length := by
  refine scan_eq zero (Nat.le_add_right _ _) (fun i low high => ⟨avoids i low high, ?_⟩) ?_
  · apply all
    rw [← slice_eq left]
    exact mem_slice.mpr ⟨i, low, high, rfl⟩
  · rcases ends with same | ends
    · exact .inl same
    · right
      have behind := drop_append left
      cases rest with
      | nil => rw [unit_end behind, zero]
      | cons x r => rw [unit_eq behind, ends x r rfl]

end Json

end ArkRuntime
