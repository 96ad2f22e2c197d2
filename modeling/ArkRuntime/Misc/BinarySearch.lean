import ArkRuntime.Misc.Loop

/-!
# Search in sorted slots

Binary search for a number in the slots `0, ..., size - 1`. The result is an index that holds the number,
or `-(p + 1)` where `p` is the place at which it would have to be inserted. Where several slots may hold
the same number, `scanRight` and `scanLeft` look at the slots next to the index found for the one that
is wanted.

`read` is `none` outside the array; a search that returns has read inside.
-/

namespace ArkRuntime

/-- One round of the loop, with the state `(low, high)`. -/
def binarySearchStep (read : Nat → Option Int) (key : Int) (s : Int × Int) :
    (Int × Int) ⊕ Option Int :=
  if s.1 ≤ s.2 then
    let mid := (s.1 + s.2) / 2
    match read mid.toNat with
    | none => .inr none
    | some midVal =>
        if midVal < key then .inl (mid + 1, s.2)
        else if midVal ≤ key then .inr (some mid)
        else .inl (s.1, mid - 1)
  else .inr (some (-(s.1 + 1)))

def binarySearch (read : Nat → Option Int) (key : Int) (size : Nat) : Option Int :=
  (iter (binarySearchStep read key) (size + 1) (0, (size : Int) - 1)).join

/-- The slots are sorted. -/
def Ascending (val : Nat → Int) (size : Nat) : Prop := ∀ i j, i ≤ j → j < size → val i ≤ val j

/-- Smaller numbers are before the place `p`, greater ones from it on. -/
def Cuts (val : Nat → Int) (size : Nat) (key : Int) (p : Nat) : Prop :=
  (∀ i < p, val i < key) ∧ ∀ i, p ≤ i → i < size → key < val i

variable {read : Nat → Option Int} {val : Nat → Int} {key : Int} {size : Nat}

/-- The loop before a round: what is outside of `low, ..., high` is not the key. -/
structure Searching (val : Nat → Int) (size : Nat) (key : Int) (low high : Int) : Prop where
  nonneg : 0 ≤ low
  bound : high < size
  le : low ≤ high + 1
  below : Ascending val size → ∀ i : Nat, (i : Int) < low → val i < key
  above : Ascending val size → ∀ i : Nat, high < i → i < size → key < val i

theorem searching_low {low high : Int} (reads : ∀ i < size, read i = some (val i))
    (searching : Searching val size key low high) (le : low ≤ high)
    (less : val ((low + high) / 2).toNat < key) :
    binarySearchStep read key (low, high) = .inl ((low + high) / 2 + 1, high) ∧
      Searching val size key ((low + high) / 2 + 1) high := by
  have hl := searching.nonneg
  have hh := searching.bound
  refine ⟨?_, by omega, hh, by omega, ?_, searching.above⟩
  · simp only [binarySearchStep, le, if_true]
    rw [reads _ (by omega)]
    simp only [less, if_true]
  · intro sorted i before
    exact Int.lt_of_le_of_lt (sorted i _ (by omega) (by omega)) less

theorem searching_high {low high : Int} (reads : ∀ i < size, read i = some (val i))
    (searching : Searching val size key low high) (le : low ≤ high)
    (greater : key < val ((low + high) / 2).toNat) :
    binarySearchStep read key (low, high) = .inl (low, (low + high) / 2 - 1) ∧
      Searching val size key low ((low + high) / 2 - 1) := by
  have hl := searching.nonneg
  have hh := searching.bound
  refine ⟨?_, hl, by omega, by omega, searching.below, ?_⟩
  · simp only [binarySearchStep, le, if_true]
    rw [reads _ (by omega)]
    simp only [Int.not_lt.mpr (Int.le_of_lt greater), Int.not_le.mpr greater, if_false]
  · intro sorted i behind inside
    exact Int.lt_of_lt_of_le greater (sorted _ i (by omega) inside)

theorem binarySearch_spec (size : Nat) (key : Int) (reads : ∀ i < size, read i = some (val i)) :
    ∃ r, binarySearch read key size = some r ∧
      ((∃ i < size, r = (i : Int) ∧ val i = key) ∨
        ∃ p ≤ size, r = -((p : Int) + 1) ∧ (Ascending val size → Cuts val size key p)) := by
  have rule : ∃ o, iter (binarySearchStep read key) (size + 1) (0, (size : Int) - 1) = some o ∧ _ :=
    iter_spec (I := fun n s => n = (s.2 + 1 - s.1).toNat ∧ Searching val size key s.1 s.2)
    (Q := fun o => ∃ r, o = some r ∧ ((∃ i < size, r = (i : Int) ∧ val i = key) ∨
      ∃ p ≤ size, r = -((p : Int) + 1) ∧ (Ascending val size → Cuts val size key p)))
    ?_ (size + 1) size (0, (size : Int) - 1) ?_ (by omega)
  · obtain ⟨o, run, r, rfl, spec⟩ := rule
    exact ⟨r, by rw [binarySearch, run]; rfl, spec⟩
  · rintro n ⟨low, high⟩ ⟨rfl, searching⟩
    have hl := searching.nonneg
    have hh := searching.bound
    have hle := searching.le
    simp only at *
    by_cases le : low ≤ high
    · rcases Int.lt_trichotomy (val ((low + high) / 2).toNat) key with less | same | greater
      · obtain ⟨again, searching'⟩ := searching_low reads searching le less
        exact .inl ⟨_, _, again, by omega, rfl, searching'⟩
      · refine .inr ⟨some ((low + high) / 2), ?_, _, rfl, ?_⟩
        · simp only [binarySearchStep, le, if_true]
          rw [reads _ (by omega)]
          simp [same]
        · exact .inl ⟨((low + high) / 2).toNat, by omega, by omega, same⟩
      · obtain ⟨again, searching'⟩ := searching_high reads searching le greater
        exact .inl ⟨_, _, again, by omega, rfl, searching'⟩
    · refine .inr ⟨_, if_neg le, _, rfl, .inr ⟨low.toNat, by omega, by simp only; omega, ?_⟩⟩
      intro sorted
      refine ⟨fun i before => ?_, fun i behind inside => ?_⟩
      · exact searching.below sorted i (by omega)
      · exact searching.above sorted i (by omega) inside
  · refine ⟨by simp only; omega, Int.le_refl 0, by simp only; omega, by simp only; omega, ?_, ?_⟩
    · intro _ i before
      simp only at before
      omega
    · intro _ i behind inside
      simp only at behind
      omega

/-! ## Slots with the same number -/

/-- The slots from `right` on, as long as they hold the number: the wanted one, or the end. -/
def scanRight (sameHash sameKey : Nat → Option Bool) : Nat → Nat → Option (Nat × Bool)
  | 0, right => some (right, false)
  | n + 1, right => do
      if !(← sameHash right) then return (right, false)
      if ← sameKey right then return (right, true)
      scanRight sameHash sameKey n (right + 1)

/-- The slots before `left`, as long as they hold the number: the wanted one, or nothing. -/
def scanLeft (sameHash sameKey : Nat → Option Bool) : Nat → Option (Option Nat)
  | 0 => some none
  | left + 1 => do
      if !(← sameHash left) then return none
      if ← sameKey left then return some left
      scanLeft sameHash sameKey left

variable {sameHash sameKey : Nat → Option Bool} {h k : Nat → Bool}

theorem scanRight_spec (hashes : ∀ i < size, sameHash i = some (h i))
    (keys : ∀ i < size, sameKey i = some (k i)) (n right : Nat) (inside : right + n = size) :
    ∃ r found, scanRight sameHash sameKey n right = some (r, found) ∧ right ≤ r ∧ r ≤ size ∧
      (∀ j, right ≤ j → j < r → h j = true ∧ k j = false) ∧
      (found = true → r < size ∧ h r = true ∧ k r = true) ∧
      (found = false → r < size → h r = false) := by
  induction n generalizing right with
  | zero =>
    refine ⟨right, false, rfl, Nat.le_refl _, by omega, fun j _ _ => by omega, ?_, fun _ _ => by omega⟩
    intro no
    cases no
  | succ n ih =>
    have here := hashes right (by omega)
    have key := keys right (by omega)
    rw [scanRight, here, key]
    cases hh : h right with
    | false =>
      refine ⟨right, false, rfl, Nat.le_refl _, by omega, fun j _ _ => by omega, ?_, fun _ _ => hh⟩
      intro no
      cases no
    | true =>
      cases hk : k right with
      | true =>
        refine ⟨right, true, rfl, Nat.le_refl _, by omega, fun j _ _ => by omega, ?_, ?_⟩
        · exact fun _ => ⟨by omega, hh, hk⟩
        · intro no
          cases no
      | false =>
        obtain ⟨r, found, run, le, bound, passed, hit, stop⟩ := ih (right + 1) (by omega)
        refine ⟨r, found, run, by omega, bound, fun j ge less => ?_, hit, stop⟩
        rcases Nat.eq_or_lt_of_le ge with rfl | behind
        · exact ⟨hh, hk⟩
        · exact passed j behind less

theorem scanLeft_spec (hashes : ∀ i < size, sameHash i = some (h i))
    (keys : ∀ i < size, sameKey i = some (k i)) (left : Nat) (inside : left ≤ size) :
    ∃ r, scanLeft sameHash sameKey left = some r ∧
      (∀ i, r = some i → i < left ∧ h i = true ∧ k i = true) ∧
      (r = none → ∃ b ≤ left, (∀ j, b ≤ j → j < left → k j = false) ∧
        ∀ j, j + 1 = b → h j = false) := by
  induction left with
  | zero =>
    refine ⟨none, rfl, fun i no => absurd no (by simp), fun _ => ⟨0, Nat.le_refl 0, ?_, ?_⟩⟩
    · exact fun j _ below => absurd below (Nat.not_lt_zero j)
    · exact fun j no => absurd no (by omega)
  | succ left ih =>
    have here := hashes left (by omega)
    have key := keys left (by omega)
    rw [scanLeft, here, key]
    cases hh : h left with
    | false =>
      refine ⟨none, rfl, fun i no => absurd no (by simp), fun _ => ⟨left + 1, Nat.le_refl _, ?_, ?_⟩⟩
      · exact fun j _ _ => by omega
      · intro j same
        obtain rfl : j = left := by omega
        exact hh
    | true =>
      cases hk : k left with
      | true =>
        refine ⟨some left, rfl, ?_, fun no => absurd no (by simp)⟩
        rintro i ⟨⟩
        exact ⟨by omega, hh, hk⟩
      | false =>
        obtain ⟨r, run, hit, miss⟩ := ih (by omega)
        refine ⟨r, run, fun i same => ?_, fun same => ?_⟩
        · obtain ⟨below, found⟩ := hit i same
          exact ⟨by omega, found⟩
        · obtain ⟨b, le, passed, stop⟩ := miss same
          refine ⟨b, by omega, fun j ge less => ?_, stop⟩
          rcases Nat.lt_succ_iff_lt_or_eq.mp less with before | rfl
          · exact passed j ge before
          · exact hk

/-- In sorted slots, two scans that find nothing have seen every slot that holds the number. -/
theorem scan_none (sorted : Ascending val size) (hashes : ∀ i < size, h i = decide (val i = key))
    {index r b : Nat} (place : index < size) (here : val index = key) (le : index ≤ r)
    (right : ∀ j, index ≤ j → j < r → k j = false) (stop : r < size → h r = false)
    (before : b ≤ index) (left : ∀ j, b ≤ j → j < index → k j = false)
    (stop' : ∀ j, j + 1 = b → h j = false) : ∀ j < size, val j = key → k j = false := by
  intro j below same
  rcases Nat.lt_or_ge j index with less | ge
  · by_cases seen : b ≤ j
    · exact left j seen less
    · have no := stop' (b - 1) (by omega)
      rw [hashes _ (by omega), decide_eq_false_iff_not] at no
      have first := sorted j (b - 1) (by omega) (by omega)
      have second := sorted (b - 1) index (by omega) place
      omega
  · by_cases seen : j < r
    · exact right j ge seen
    · have no := stop (by omega)
      rw [hashes _ (by omega), decide_eq_false_iff_not] at no
      have first := sorted index r le (by omega)
      have second := sorted r j (by omega) below
      omega

/-- The end of a scan to the right is the place behind the slots that hold the number. -/
theorem scan_end (sorted : Ascending val size) (hashes : ∀ i < size, h i = decide (val i = key))
    {index r : Nat} (place : index < size) (here : val index = key) (le : index ≤ r)
    (right : ∀ j, index ≤ j → j < r → h j = true) (bound : r ≤ size) (stop : r < size → h r = false) :
    (∀ i < r, val i ≤ key) ∧ ∀ i, r ≤ i → i < size → key < val i := by
  refine ⟨fun i before => ?_, fun i behind inside => ?_⟩
  · by_cases less : i < index
    · exact Int.le_trans (sorted i index (by omega) place) (Int.le_of_eq here)
    · have same := right i (by omega) before
      rw [hashes i (by omega), decide_eq_true_eq] at same
      exact Int.le_of_eq same
  · have no := stop (by omega)
    rw [hashes r (by omega), decide_eq_false_iff_not] at no
    have first := sorted index r le (by omega)
    have second := sorted r i behind inside
    omega

end ArkRuntime
