import ArkRuntime.Misc.Int32
import Mathlib.Algebra.Order.Field.Rat
import Mathlib.Algebra.Order.Field.Power

/-!
# Floats of 32 bits

Their numbers, as rationals, and the one that is next to an integer of 32 bits.
-/

namespace ArkRuntime.Binary32

/-- A significand of 24 bits and a power of two. -/
def IsSingle (q : ℚ) : Prop :=
  ∃ m e : Int, m.natAbs < 2 ^ 24 ∧ -149 ≤ e ∧ e ≤ 104 ∧ q = m * 2 ^ e

/-- The number of a finite float. -/
def Single : Type := {q : ℚ // IsSingle q}

/-- The last place of an integer with a significand of 24 bits. -/
def unit (n : Nat) : Nat := 2 ^ (n.log2 - 23)

/-- The float that is nearest to a natural number, with ties to even. -/
def nearestNat (n : Nat) : Nat :=
  let q := n / unit n
  let r := n % unit n
  (if unit n < 2 * r ∨ (2 * r = unit n ∧ q % 2 = 1) then q + 1 else q) * unit n

/-- The float that is nearest to an integer. -/
def nearest (n : Int) : Int := if n < 0 then -nearestNat n.natAbs else nearestNat n.natAbs

example : nearest 16777217 = 16777216 := by decide +kernel

theorem unit_pos (n : Nat) : 0 < unit n := Nat.two_pow_pos _

theorem nearestNat_eq_iff {n : Nat} : nearestNat n = n ↔ unit n ∣ n := by
  have parts := Nat.div_add_mod n (unit n)
  have below := Nat.mod_lt n (unit_pos n)
  rw [Nat.mul_comm] at parts
  rw [Nat.dvd_iff_mod_eq_zero]
  unfold nearestNat
  dsimp only
  generalize n / unit n = q at *
  generalize n % unit n = r at *
  generalize unit n = u at *
  constructor
  · intro same
    split at same
    · rw [Nat.add_mul, Nat.one_mul] at same
      omega
    · omega
  · intro whole
    rw [if_neg (by omega)]
    omega

/-- An integer is a float exactly if it has no bit below the last place. -/
theorem nearest_eq_iff {n : Int} : nearest n = n ↔ unit n.natAbs ∣ n.natAbs := by
  rw [← nearestNat_eq_iff, nearest]
  split <;> omega

theorem unit_dvd {n : Int} (single : IsSingle n) : unit n.natAbs ∣ n.natAbs := by
  obtain ⟨m, e, small, -, -, same⟩ := single
  have magnitude : (n.natAbs : ℚ) = m.natAbs * 2 ^ e := by
    rw [Nat.cast_natAbs, Nat.cast_natAbs, Int.cast_abs, Int.cast_abs, same, abs_mul,
      abs_of_pos (zpow_pos (by decide : (0 : ℚ) < 2) e)]
  generalize n.natAbs = n at *
  generalize m.natAbs = m at *
  unfold unit
  by_cases short : n.log2 ≤ 23
  · rw [Nat.sub_eq_zero_of_le short]
    exact one_dvd n
  · have high : 2 ^ n.log2 ≤ n := Nat.log2_self_le (by rintro rfl; exact short (by decide))
    have large : (n.log2 - 23 : Nat) ≤ e := by
      by_contra less
      have power : (2 : ℚ) ^ e ≤ 2 ^ ((n.log2 : Int) - 24) := zpow_le_zpow_right₀ (by norm_num) (by omega)
      have below : (n : ℚ) < 2 ^ (24 : Int) * 2 ^ ((n.log2 : Int) - 24) := by
        rw [magnitude]
        exact mul_lt_mul (by exact_mod_cast small) power (zpow_pos (by norm_num) e) (by norm_num)
      rw [← zpow_add₀ (by norm_num : (2 : ℚ) ≠ 0), add_sub_cancel, zpow_natCast] at below
      exact absurd high (Nat.not_le.mpr (by exact_mod_cast below))
    obtain ⟨j, rfl⟩ := Int.le.dest large
    refine ⟨m * 2 ^ j, ?_⟩
    rw [zpow_add₀ (by norm_num : (2 : ℚ) ≠ 0), zpow_natCast, zpow_natCast, mul_left_comm] at magnitude
    exact_mod_cast magnitude

theorem isSingle_nearestNat {n : Nat} (le : n ≤ 2 ^ 31) : ∃ m k : Nat, m < 2 ^ 24 ∧ k ≤ 104 ∧ nearestNat n = m * 2 ^ k := by
  have small : n.log2 ≤ 31 := by
    by_contra large
    have high := Nat.log2_self_le (n := n) (by rintro rfl; exact large (by decide))
    have := Nat.pow_le_pow_right (by decide : 0 < 2) (by omega : 32 ≤ n.log2)
    omega
  have quotient : n / unit n < 2 ^ 24 := by
    refine Nat.div_lt_of_lt_mul (Nat.lt_of_lt_of_le Nat.lt_log2_self ?_)
    rw [unit, ← Nat.pow_add]
    exact Nat.pow_le_pow_right (by decide) (by omega)
  unfold nearestNat
  dsimp only
  split
  · rcases Nat.lt_or_ge (n / unit n + 1) (2 ^ 24) with less | carries
    · exact ⟨_, _, less, by omega, rfl⟩
    · -- the next power of two
      rw [show n / unit n + 1 = 2 ^ 23 * 2 by omega, unit, Nat.mul_assoc, ← Nat.pow_succ']
      exact ⟨2 ^ 23, n.log2 - 23 + 1, by decide, by omega, rfl⟩
  · exact ⟨_, _, quotient, by omega, rfl⟩

theorem isSingle_nearest {n : Int} (fits : FitsInt32 n) : IsSingle (nearest n) := by
  have le : n.natAbs ≤ 2 ^ 31 := by
    unfold FitsInt32 int32Min int32Max at fits
    omega
  obtain ⟨m, k, small, exponent, same⟩ := isSingle_nearestNat le
  unfold nearest
  rw [same]
  split
  · exact ⟨-m, k, by omega, by omega, by omega, by push_cast; rw [zpow_natCast, neg_mul]⟩
  · exact ⟨m, k, by omega, by omega, by omega, by push_cast; rw [zpow_natCast]⟩

/-- The float that an integer of 32 bits is converted to. -/
def Single.ofInt (n : Int) (fits : FitsInt32 n) : Single := ⟨nearest n, isSingle_nearest fits⟩

end ArkRuntime.Binary32
