import Mathlib.Tactic.Linarith
import Mathlib.Tactic.Ring

/-!
# Estimates of a quotient digit

One step of long division in base `base`: the quotient of a dividend below `base` times the divisor,
estimated from the leading digits. The divisor is `(v₁ * base + v₂) * weight + vLow`, the dividend is
`(u * base + u₂) * weight + uLow`. An estimate is a number `q` with `u = q * v₁ + r`; it is too large
when `q * v₂` exceeds `r * base + u₂`, and then `q - 1` with `r + v₁` is an estimate as well. When the
test finds nothing, the estimate is at most one too large.
-/

namespace ArkRuntime

structure QuotientStep where
  base : Nat
  weight : Nat
  v₁ : Nat
  v₂ : Nat
  vLow : Nat
  u : Nat
  u₂ : Nat
  uLow : Nat
  v₁_pos : 0 < v₁
  v₂_lt : v₂ < base
  u₂_lt : u₂ < base
  vLow_lt : vLow < weight
  uLow_lt : uLow < weight

namespace QuotientStep

variable (S : QuotientStep) {q r : Nat}

def divisor : Nat := (S.v₁ * S.base + S.v₂) * S.weight + S.vLow

def dividend : Nat := (S.u * S.base + S.u₂) * S.weight + S.uLow

/-- `q` is not below the quotient, and `r` is what is left of the leading digits. -/
structure Estimate (q r : Nat) : Prop where
  leading : S.u = q * S.v₁ + r
  upper : S.dividend < (q + 1) * S.divisor

/-- `q` is the quotient, or one more. -/
structure Near (q : Nat) : Prop where
  upper : S.dividend < (q + 1) * S.divisor
  lower : q * S.divisor < S.dividend + S.divisor

theorem base_pos : 0 < S.base := Nat.lt_of_le_of_lt (Nat.zero_le _) S.v₂_lt

theorem dividend_lt (S : QuotientStep) :
    S.dividend < (S.u * S.base + S.u₂ + 1) * S.weight := by
  have := S.uLow_lt
  unfold dividend
  rw [Nat.add_mul _ 1, Nat.one_mul]
  omega

/-- The quotient of the leading digits is an estimate. -/
theorem estimate_div : S.Estimate (S.u / S.v₁) (S.u % S.v₁) := by
  refine ⟨(Nat.div_add_mod' _ _).symm, ?_⟩
  have below : S.u + 1 ≤ (S.u / S.v₁ + 1) * S.v₁ := by
    have split := Nat.div_add_mod' S.u S.v₁
    have := Nat.mod_lt S.u S.v₁_pos
    rw [Nat.add_mul, Nat.one_mul]
    omega
  calc S.dividend < (S.u * S.base + S.u₂ + 1) * S.weight := S.dividend_lt
    _ ≤ ((S.u + 1) * S.base) * S.weight := by
        apply Nat.mul_le_mul_right
        have := S.u₂_lt
        rw [Nat.add_mul, Nat.one_mul]
        omega
    _ ≤ ((S.u / S.v₁ + 1) * S.v₁ * S.base) * S.weight :=
        Nat.mul_le_mul_right _ (Nat.mul_le_mul_right _ below)
    _ = (S.u / S.v₁ + 1) * (S.v₁ * S.base * S.weight) := by ring
    _ ≤ (S.u / S.v₁ + 1) * S.divisor := by
        apply Nat.mul_le_mul_left
        unfold divisor
        rw [Nat.add_mul]
        omega

variable {S}

/-- The test finds that the estimate is too large. -/
theorem Estimate.lt_of_overshoot (estimate : S.Estimate q r)
    (overshoot : r * S.base + S.u₂ < q * S.v₂) : S.dividend < q * S.divisor := by
  have leading : S.u * S.base + S.u₂ + 1 ≤ q * (S.v₁ * S.base + S.v₂) := by
    rw [estimate.leading]
    nlinarith
  calc S.dividend < (S.u * S.base + S.u₂ + 1) * S.weight := S.dividend_lt
    _ ≤ q * (S.v₁ * S.base + S.v₂) * S.weight := Nat.mul_le_mul_right _ leading
    _ = q * ((S.v₁ * S.base + S.v₂) * S.weight) := by ring
    _ ≤ q * S.divisor := Nat.mul_le_mul_left _ (Nat.le_add_right _ _)

/-- An estimate that is too large is lowered by one. -/
theorem Estimate.lower (estimate : S.Estimate q r) (large : S.dividend < q * S.divisor) :
    0 < q ∧ S.Estimate (q - 1) (r + S.v₁) := by
  have positive : 0 < q := by
    apply Nat.pos_of_ne_zero
    rintro rfl
    rw [Nat.zero_mul] at large
    omega
  refine ⟨positive, ?_, ?_⟩
  · rw [estimate.leading]
    obtain ⟨k, rfl⟩ : ∃ k, q = k + 1 := ⟨q - 1, by omega⟩
    rw [Nat.add_sub_cancel]
    ring
  · rwa [Nat.sub_add_cancel positive]

/-- The test finds nothing: the leading digits bound the estimate. -/
theorem Estimate.leading_le (estimate : S.Estimate q r) (passes : q * S.v₂ ≤ r * S.base + S.u₂) :
    q * (S.v₁ * S.base + S.v₂) ≤ S.u * S.base + S.u₂ := by
  rw [estimate.leading]
  nlinarith

/-- Where `r` has left the base, the test would find nothing. -/
theorem passes_of_le (small : q ≤ S.base) (left : S.base ≤ r) : q * S.v₂ ≤ r * S.base + S.u₂ := by
  have : q * S.v₂ ≤ r * S.base :=
    Nat.le_trans (Nat.mul_le_mul small (Nat.le_of_lt S.v₂_lt)) (Nat.mul_le_mul_right _ left)
  omega

/-- A tested estimate is at most one too large. -/
theorem Estimate.near (estimate : S.Estimate q r) (small : q ≤ S.base)
    (passes : q * S.v₂ ≤ r * S.base + S.u₂) : S.Near q := by
  refine ⟨estimate.upper, ?_⟩
  have leading := Nat.mul_le_mul_right S.weight (estimate.leading_le passes)
  have low : q * S.vLow < S.divisor := by
    have positive : 0 < S.weight := Nat.lt_of_le_of_lt (Nat.zero_le _) S.vLow_lt
    have one : S.base * S.weight ≤ S.v₁ * S.base * S.weight :=
      Nat.mul_le_mul_right _ (Nat.le_mul_of_pos_left _ S.v₁_pos)
    calc q * S.vLow ≤ S.base * S.vLow := Nat.mul_le_mul_right _ small
      _ < S.base * S.weight := Nat.mul_lt_mul_of_pos_left S.vLow_lt S.base_pos
      _ ≤ S.divisor := by
          unfold divisor
          rw [Nat.add_mul]
          omega
  have expand : q * S.divisor = q * (S.v₁ * S.base + S.v₂) * S.weight + q * S.vLow := by
    unfold divisor
    ring
  have : (S.u * S.base + S.u₂) * S.weight ≤ S.dividend := Nat.le_add_right _ _
  omega

theorem divisor_lt (S : QuotientStep) : S.divisor < (S.v₁ + 1) * (S.base * S.weight) := by
  have leading : S.v₁ * S.base + S.v₂ + 1 ≤ (S.v₁ + 1) * S.base := by
    have := S.v₂_lt
    rw [Nat.add_mul, Nat.one_mul]
    omega
  calc S.divisor < (S.v₁ * S.base + S.v₂ + 1) * S.weight := by
        have := S.vLow_lt
        unfold divisor
        rw [Nat.add_mul _ 1, Nat.one_mul]
        omega
    _ ≤ (S.v₁ + 1) * S.base * S.weight := Nat.mul_le_mul_right _ leading
    _ = (S.v₁ + 1) * (S.base * S.weight) := Nat.mul_assoc _ _ _

/-- A quotient of one digit: the leading digit of the dividend does not exceed that of the
    divisor. -/
theorem le_of_fits {a b : Nat} (leading : S.u = a * S.base + b)
    (fits : S.dividend < S.base * S.divisor) : a ≤ S.v₁ := by
  have lower : a * (S.base * (S.base * S.weight)) ≤ S.dividend := by
    have expand : S.dividend = a * (S.base * (S.base * S.weight)) +
        (b * (S.base * S.weight) + S.u₂ * S.weight + S.uLow) := by
      unfold dividend
      rw [leading]
      ring
    omega
  have upper : a * (S.base * (S.base * S.weight)) < (S.v₁ + 1) * (S.base * (S.base * S.weight)) := by
    calc a * (S.base * (S.base * S.weight)) ≤ S.dividend := lower
      _ < S.base * S.divisor := fits
      _ ≤ S.base * ((S.v₁ + 1) * (S.base * S.weight)) :=
          Nat.mul_le_mul_left _ (Nat.le_of_lt S.divisor_lt)
      _ = (S.v₁ + 1) * (S.base * (S.base * S.weight)) := by ring
  exact Nat.le_of_lt_succ (Nat.lt_of_mul_lt_mul_right upper)

/-- Where the leading digits of dividend and divisor agree, the largest digit is near, provided that
    the divisor is normalized. -/
theorem near_pred_base (top : S.v₁ * S.base ≤ S.u) (normalized : S.base ≤ 2 * S.v₁)
    (two : 2 ≤ S.base) (fits : S.dividend < S.base * S.divisor) : S.Near (S.base - 1) := by
  refine ⟨by rwa [Nat.sub_add_cancel S.base_pos], ?_⟩
  obtain ⟨b, hb⟩ : ∃ b, S.base = b + 2 := ⟨S.base - 2, by omega⟩
  have digits : b * (S.v₁ + 1) ≤ S.v₁ * S.base := by
    have expand : b * (S.v₁ + 1) = S.v₁ * b + b := by ring
    rw [expand, hb, Nat.mul_add]
    omega
  have low : b * S.divisor < S.dividend := by
    have weight : 0 < S.base * S.weight :=
      Nat.mul_pos S.base_pos (Nat.lt_of_le_of_lt (Nat.zero_le _) S.vLow_lt)
    rcases Nat.eq_zero_or_pos b with rfl | positive
    · rw [Nat.zero_mul]
      have : 0 < S.u := Nat.lt_of_lt_of_le (Nat.mul_pos S.v₁_pos S.base_pos) top
      have : 0 < S.u * (S.base * S.weight) := Nat.mul_pos this weight
      unfold dividend
      rw [Nat.add_mul, Nat.mul_assoc]
      omega
    calc b * S.divisor < b * ((S.v₁ + 1) * (S.base * S.weight)) :=
          Nat.mul_lt_mul_of_pos_left S.divisor_lt positive
      _ = b * (S.v₁ + 1) * (S.base * S.weight) := (Nat.mul_assoc _ _ _).symm
      _ ≤ S.u * (S.base * S.weight) := Nat.mul_le_mul_right _ (Nat.le_trans digits top)
      _ ≤ S.dividend := by
          unfold dividend
          rw [Nat.add_mul, Nat.mul_assoc]
          omega
  rw [hb, show b + 2 - 1 = b + 1 by omega, Nat.add_mul, Nat.one_mul]
  omega

/-- Where the divisor has no further digits, a tested estimate is the quotient. -/
theorem Estimate.eq_div (estimate : S.Estimate q r) (whole : S.weight = 1)
    (passes : q * S.v₂ ≤ r * S.base + S.u₂) : q = S.dividend / S.divisor := by
  have noLow : S.vLow = 0 := by
    have := S.vLow_lt
    omega
  have lower : q * S.divisor ≤ S.dividend := by
    have := estimate.leading_le passes
    unfold divisor dividend
    rw [whole, noLow, Nat.mul_one, Nat.mul_one, Nat.add_zero]
    omega
  exact (Nat.div_eq_of_lt_le lower estimate.upper).symm

end QuotientStep

end ArkRuntime
