import ArkRuntime.BigInt.Shift
import ArkRuntime.BigInt.Multiply
import ArkRuntime.Misc.QuotientEstimate

/-!
# `DivideAndRemainder` and `ImproveAccuracy`

Both correct an estimate of a quotient in the way of `QuotientStep`: `DivideAndRemainder` twice, on
half digits, where the test makes it exact, and `ImproveAccuracy` on the two leading digits of a
longer divisor, where one too many can be left.
-/

namespace ArkRuntime

namespace BigInt

/-! ## Alignment -/

theorem countLeadingZeros_spec {v : UInt32} (nonzero : v ≠ 0) :
    (countLeadingZeros v).toNat < 32 ∧ 2 ^ 31 ≤ v.toNat * 2 ^ (countLeadingZeros v).toNat ∧
      v.toNat * 2 ^ (countLeadingZeros v).toNat < 2 ^ 32 := by
  have positive : v.toNat ≠ 0 := fun eq => nonzero (UInt32.toNat_inj.mp eq)
  have small : v.toNat.log2 < 32 := (Nat.log2_lt positive).mpr v.toNat_lt
  have zeros : (countLeadingZeros v).toNat = 31 - v.toNat.log2 := by
    rw [countLeadingZeros, if_neg nonzero, UInt32.toNat_ofNat']
    omega
  rw [zeros]
  have low : 2 ^ v.toNat.log2 * 2 ^ (31 - v.toNat.log2) = 2 ^ 31 := by
    rw [← pow_add]
    congr 1
    omega
  have high : 2 ^ (v.toNat.log2 + 1) * 2 ^ (31 - v.toNat.log2) = 2 ^ 32 := by
    rw [← pow_add]
    congr 1
    omega
  refine ⟨by omega, ?_, ?_⟩
  · rw [← low]
    exact Nat.mul_le_mul_right _ (Nat.log2_self_le positive)
  · rw [← high]
    exact Nat.mul_lt_mul_of_pos_right Nat.lt_log2_self (Nat.pow_pos (by norm_num))

/-! ## Half quotients -/

variable {v₁ v₂ u u₂ : UInt32}

/-- The step of a half quotient. -/
def halfStep (u v₁ v₂ u₂ : UInt32) (positive : 0 < v₁.toNat) (half₂ : v₂.toNat < 2 ^ 16)
    (halfU₂ : u₂.toNat < 2 ^ 16) : QuotientStep where
  base := 2 ^ 16
  weight := 1
  v₁ := v₁.toNat
  v₂ := v₂.toNat
  vLow := 0
  u := u.toNat
  u₂ := u₂.toNat
  uLow := 0
  v₁_pos := positive
  v₂_lt := half₂
  u₂_lt := halfU₂
  vLow_lt := Nat.zero_lt_one
  uLow_lt := Nat.zero_lt_one

theorem halfUint32Value_toNat : halfUint32Value.toNat = 2 ^ 16 := rfl

/-- The condition of the correction loops, without overflow. -/
theorem half_condition (s : UInt32 × UInt32) (half₂ : v₂.toNat < 2 ^ 16) (halfU₂ : u₂.toNat < 2 ^ 16)
    (small : s.2.toNat < 2 ^ 16) :
    (s.1 ≥ halfUint32Value ∨ s.1 * v₂ > s.2 * halfUint32Value + u₂) ↔
      (2 ^ 16 ≤ s.1.toNat ∨ s.2.toNat * 2 ^ 16 + u₂.toNat < s.1.toNat * v₂.toNat) := by
  rw [ge_iff_le, gt_iff_lt, UInt32.le_iff_toNat_le, UInt32.lt_iff_toNat_lt, halfUint32Value_toNat]
  rcases Nat.lt_or_ge s.1.toNat (2 ^ 16) with half | large
  · have product : (s.1 * v₂).toNat = s.1.toNat * v₂.toNat := toNat_mul_of_lt half half₂
    have other : (s.2 * halfUint32Value + u₂).toNat = s.2.toNat * 2 ^ 16 + u₂.toNat := by
      rw [UInt32.toNat_add, UInt32.toNat_mul, halfUint32Value_toNat]
      omega
    rw [product, other]
  · exact ⟨fun _ => .inl large, fun _ => .inl large⟩

variable {s : UInt32 × UInt32} {divisor D : UInt32}

/-- A round of a correction loop lowers `n`, or ends with the quotient. -/
theorem halfRound_spec (positive : 0 < v₁.toNat) (half1 : v₁.toNat < 2 ^ 16) (half₂ : v₂.toNat < 2 ^ 16)
    (halfU₂ : u₂.toNat < 2 ^ 16)
    (fits : u.toNat * 2 ^ 16 + u₂.toNat < 2 ^ 16 * (v₁.toNat * 2 ^ 16 + v₂.toNat))
    (estimate : (halfStep u v₁ v₂ u₂ positive half₂ halfU₂).Estimate s.1.toNat s.2.toNat)
    (small : s.2.toNat < 2 ^ 16) :
    (∃ s' : UInt32 × UInt32, halfRound v₁ v₂ u₂ s = .inl s' ∧ s.2.toNat < s'.2.toNat ∧
      s'.2.toNat < 2 ^ 16 ∧
      (halfStep u v₁ v₂ u₂ positive half₂ halfU₂).Estimate s'.1.toNat s'.2.toNat) ∨
    ∃ s' : UInt32 × UInt32, halfRound v₁ v₂ u₂ s = .inr s' ∧
      s'.1.toNat = (u.toNat * 2 ^ 16 + u₂.toNat) / (v₁.toNat * 2 ^ 16 + v₂.toNat) := by
  set S := halfStep u v₁ v₂ u₂ positive half₂ halfU₂ with hS
  have divisor : S.divisor = v₁.toNat * 2 ^ 16 + v₂.toNat := by
    simp [hS, QuotientStep.divisor, halfStep]
  have dividend : S.dividend = u.toNat * 2 ^ 16 + u₂.toNat := by
    simp [hS, QuotientStep.dividend, halfStep]
  by_cases cond : s.1 ≥ halfUint32Value ∨ s.1 * v₂ > s.2 * halfUint32Value + u₂
  · have large : S.dividend < s.1.toNat * S.divisor := by
      rcases (half_condition s half₂ halfU₂ small).mp cond with large | overshoot
      · rw [dividend, divisor]
        exact Nat.lt_of_lt_of_le fits (Nat.mul_le_mul_right _ large)
      · exact estimate.lt_of_overshoot overshoot
    obtain ⟨nonzero, lowered⟩ := estimate.lower large
    have first : (s.1 - 1).toNat = s.1.toNat - 1 := by
      have := s.1.toNat_lt
      rw [UInt32.toNat_sub]
      simp only [UInt32.reduceToNat]
      omega
    have second : (s.2 + v₁).toNat = s.2.toNat + v₁.toNat := by
      rw [UInt32.toNat_add]
      omega
    change S.Estimate (s.1.toNat - 1) (s.2.toNat + v₁.toNat) at lowered
    by_cases leave : s.2 + v₁ ≥ halfUint32Value
    · right
      refine ⟨(s.1 - 1, s.2 + v₁), by rw [halfRound, if_pos cond, if_pos leave], ?_⟩
      rw [ge_iff_le, UInt32.le_iff_toNat_le, halfUint32Value_toNat, second] at leave
      rw [← dividend, ← divisor, first]
      apply lowered.eq_div rfl
      apply QuotientStep.passes_of_le _ leave
      -- the leading digits are below the divisor, and more than a half digit of them is left
      have leading : u.toNat = (s.1.toNat - 1) * v₁.toNat + (s.2.toNat + v₁.toNat) := lowered.leading
      have : (s.1.toNat - 1) * v₁.toNat < 2 ^ 16 * v₁.toNat := by omega
      exact Nat.le_of_lt (Nat.lt_of_mul_lt_mul_right this)
    · left
      refine ⟨(s.1 - 1, s.2 + v₁), by rw [halfRound, if_pos cond, if_neg leave], ?_, ?_, ?_⟩
      · rw [second]
        omega
      · rw [ge_iff_le, UInt32.le_iff_toNat_le, halfUint32Value_toNat] at leave
        exact Nat.lt_of_not_le leave
      · rw [first, second]
        exact lowered
  · right
    refine ⟨s, by rw [halfRound, if_neg cond], ?_⟩
    rw [half_condition s half₂ halfU₂ small, not_or] at cond
    rw [← dividend, ← divisor]
    exact estimate.eq_div rfl (Nat.le_of_not_lt cond.2)

/-- What the first quotient leaves of the leading digits. -/
theorem toNat_sub_div_mul (u v₁ : UInt32) : (u - u / v₁ * v₁).toNat = u.toNat % v₁.toNat := by
  have split := Nat.div_add_mod' u.toNat v₁.toNat
  have bound := u.toNat_lt
  rw [UInt32.toNat_sub, UInt32.toNat_mul, UInt32.toNat_div]
  omega

theorem halfQuotient_spec (positive : 0 < v₁.toNat) (half1 : v₁.toNat < 2 ^ 16)
    (half₂ : v₂.toNat < 2 ^ 16) (halfU₂ : u₂.toNat < 2 ^ 16)
    (fits : u.toNat * 2 ^ 16 + u₂.toNat < 2 ^ 16 * (v₁.toNat * 2 ^ 16 + v₂.toNat)) :
    ∃ q, halfQuotient u v₁ v₂ u₂ = .ok q ∧
      q.toNat = (u.toNat * 2 ^ 16 + u₂.toNat) / (v₁.toNat * 2 ^ 16 + v₂.toNat) := by
  have start : (halfStep u v₁ v₂ u₂ positive half₂ halfU₂).Estimate (u / v₁).toNat
      (u - u / v₁ * v₁).toNat := by
    rw [toNat_sub_div_mul, UInt32.toNat_div]
    exact (halfStep u v₁ v₂ u₂ positive half₂ halfU₂).estimate_div
  have startSmall : (u - u / v₁ * v₁).toNat < 2 ^ 16 := by
    have := Nat.mod_lt u.toNat positive
    rw [toNat_sub_div_mul]
    omega
  obtain ⟨s, ran, value⟩ := iter_spec
    (I := fun n (s : UInt32 × UInt32) =>
      (halfStep u v₁ v₂ u₂ positive half₂ halfU₂).Estimate s.1.toNat s.2.toNat ∧
        s.2.toNat < 2 ^ 16 ∧ n = 2 ^ 16 - 1 - s.2.toNat)
    (Q := fun s : UInt32 × UInt32 =>
      s.1.toNat = (u.toNat * 2 ^ 16 + u₂.toNat) / (v₁.toNat * 2 ^ 16 + v₂.toNat))
    (fun n s ⟨estimate, small, bound⟩ => by
      rcases halfRound_spec positive half1 half₂ halfU₂ fits estimate small with
        ⟨s', again, grows, small', estimate'⟩ | ⟨s', leave, value⟩
      · exact .inl ⟨s', 2 ^ 16 - 1 - s'.2.toNat, again, by omega, estimate', small', rfl⟩
      · exact .inr ⟨s', leave, value⟩)
    halfRounds _ (u / v₁, u - u / v₁ * v₁) ⟨start, startSmall, rfl⟩ (by unfold halfRounds; omega)
  refine ⟨s.1, ?_, value⟩
  simp only [halfQuotient, ran, finished_some, ok_bind, pure_eq_ok]

theorem halfRound_grows (v₂ u₂ : UInt32) (positive : 0 < v₁.toNat) (half1 : v₁.toNat < 2 ^ 16)
    (small : s.2.toNat < 2 ^ 16) :
    (∃ s' : UInt32 × UInt32, halfRound v₁ v₂ u₂ s = .inl s' ∧ s.2.toNat < s'.2.toNat ∧
      s'.2.toNat < 2 ^ 16) ∨
    ∃ s' : UInt32 × UInt32, halfRound v₁ v₂ u₂ s = .inr s' := by
  unfold halfRound
  split
  · split
    · exact .inr ⟨_, rfl⟩
    · next stay =>
      have sum : (s.2 + v₁).toNat = s.2.toNat + v₁.toNat := by
        rw [UInt32.toNat_add]
        omega
      rw [ge_iff_le, UInt32.le_iff_toNat_le, halfUint32Value_toNat] at stay
      refine .inl ⟨(s.1 - 1, s.2 + v₁), rfl, ?_, Nat.lt_of_not_le stay⟩
      rw [sum]
      omega
  · exact .inr ⟨_, rfl⟩

/-- The correction loop ends for every dividend. -/
theorem halfQuotient_returns (u v₂ u₂ : UInt32) (positive : 0 < v₁.toNat)
    (half1 : v₁.toNat < 2 ^ 16) : ∃ q, halfQuotient u v₁ v₂ u₂ = .ok q := by
  have start : (u - u / v₁ * v₁).toNat < 2 ^ 16 := by
    have := Nat.mod_lt u.toNat positive
    rw [toNat_sub_div_mul]
    omega
  obtain ⟨s, ran, -⟩ := iter_spec
    (I := fun n (s : UInt32 × UInt32) => s.2.toNat < 2 ^ 16 ∧ n = 2 ^ 16 - 1 - s.2.toNat)
    (Q := fun _ : UInt32 × UInt32 => True)
    (fun n s ⟨small, bound⟩ => by
      rcases halfRound_grows v₂ u₂ positive half1 small with ⟨s', again, grows, small'⟩ | ⟨s', leave⟩
      · exact .inl ⟨s', 2 ^ 16 - 1 - s'.2.toNat, again, by omega, small', rfl⟩
      · exact .inr ⟨s', leave, trivial⟩)
    halfRounds _ (u / v₁, u - u / v₁ * v₁) ⟨start, rfl⟩ (by unfold halfRounds; omega)
  exact ⟨s.1, by simp only [halfQuotient, ran, finished_some, ok_bind, pure_eq_ok]⟩

/-! ## Two digits by one -/

/-- What is left of a dividend, computed modulo `2 ^ 32`. -/
theorem toNat_rest {a b c q d : UInt32} {r : Nat}
    (split : a.toNat * b.toNat + c.toNat = q.toNat * d.toNat + r) (small : r < 2 ^ 32) :
    (a * b + c - q * d).toNat = r := by
  rw [UInt32.toNat_sub, UInt32.toNat_add, UInt32.toNat_mul, UInt32.toNat_mul]
  omega

/-- The operands of `DivideAndRemainder`, moved to the left. -/
theorem align_spec {highBit : UInt32} (lowBit : UInt32) (nonzero : divisor ≠ 0)
    (below : highBit.toNat < divisor.toNat) :
    (divisor <<< countLeadingZeros divisor).toNat =
        divisor.toNat * 2 ^ (countLeadingZeros divisor).toNat ∧
      (alignHigh highBit lowBit (countLeadingZeros divisor)).toNat * 2 ^ 32 +
          (lowBit <<< countLeadingZeros divisor).toNat =
        (highBit.toNat * 2 ^ 32 + lowBit.toNat) * 2 ^ (countLeadingZeros divisor).toNat := by
  obtain ⟨small, -, fits⟩ := countLeadingZeros_spec nonzero
  set zeros := countLeadingZeros divisor with hZeros
  have shifted : (divisor <<< zeros).toNat = divisor.toNat * 2 ^ zeros.toNat := by
    rw [UInt32.toNat_shiftLeft, Nat.mod_eq_of_lt small, Nat.shiftLeft_eq, Nat.mod_eq_of_lt fits]
  refine ⟨shifted, ?_⟩
  unfold alignHigh
  rcases Nat.eq_zero_or_pos zeros.toNat with none' | positive
  · have : zeros = 0 := UInt32.toNat_inj.mp none'
    simp [this]
  · rw [if_pos (by rintro zero; rw [zero] at positive; exact absurd positive (by decide))]
    obtain ⟨low, carry⟩ := shiftLeft_digit lowBit 0 positive small (Nat.pow_pos (by norm_num))
    obtain ⟨high, -⟩ := shiftLeft_digit highBit (lowBit >>> (32 - zeros)) positive small carry
    -- nothing is lost on top, since `highBit` is below the divisor
    have top : (highBit >>> (32 - zeros)).toNat = 0 := by
      have : (highBit.toNat + 1) * 2 ^ zeros.toNat ≤ divisor.toNat * 2 ^ zeros.toNat :=
        Nat.mul_le_mul_right _ below
      rw [Nat.add_mul, Nat.one_mul] at this
      omega
    rw [top] at high
    rw [UInt32.or_zero] at low
    simp only [UInt32.toNat_zero] at low
    zify at high low ⊢
    linear_combination 2 ^ 32 * high + low

theorem halves_eq (D : UInt32) :
    (D >>> halfDateBits).toNat * 2 ^ 16 + (D &&& halfDateMask).toNat = D.toNat := by
  rw [toNat_shiftRight_half, toNat_and_halfDateMask]
  omega

theorem toNat_shiftRight_half_lt (D : UInt32) : (D >>> halfDateBits).toNat < 2 ^ 16 := by
  have := D.toNat_lt
  rw [toNat_shiftRight_half]
  omega

theorem toNat_and_halfDateMask_lt (D : UInt32) : (D &&& halfDateMask).toNat < 2 ^ 16 := by
  rw [toNat_and_halfDateMask]
  omega

theorem toNat_shiftRight_half_pos (large : 2 ^ 31 ≤ D.toNat) : 0 < (D >>> halfDateBits).toNat := by
  rw [toNat_shiftRight_half]
  omega

/-- One half of the quotient by an aligned divisor, and what it leaves. -/
theorem halfDivision_spec {u c : UInt32} (large : 2 ^ 31 ≤ D.toNat) (below : u.toNat < D.toNat)
    (half : c.toNat < 2 ^ 16) :
    ∃ q, halfQuotient u (D >>> halfDateBits) (D &&& halfDateMask) c = .ok q ∧
      q.toNat = (u.toNat * 2 ^ 16 + c.toNat) / D.toNat ∧
      (u * halfUint32Value + c - q * D).toNat = (u.toNat * 2 ^ 16 + c.toNat) % D.toNat := by
  have fits : u.toNat * 2 ^ 16 + c.toNat <
      2 ^ 16 * ((D >>> halfDateBits).toNat * 2 ^ 16 + (D &&& halfDateMask).toNat) := by
    rw [halves_eq]
    omega
  obtain ⟨q, ran, quotient⟩ := halfQuotient_spec (toNat_shiftRight_half_pos large)
    (toNat_shiftRight_half_lt D) (toNat_and_halfDateMask_lt D) half fits
  rw [halves_eq] at quotient
  refine ⟨q, ran, quotient, toNat_rest ?_ ?_⟩
  · rw [halfUint32Value_toNat, quotient, Nat.div_add_mod']
  · exact Nat.lt_trans (Nat.mod_lt _ (by omega)) D.toNat_lt

/-- Two half quotients make up the quotient. -/
theorem two_halves {D u c1 c2 low q1 q2 : Nat} (positive : 0 < D) (join : c1 * 2 ^ 16 + c2 = low)
    (first : q1 = (u * 2 ^ 16 + c1) / D)
    (second : q2 = ((u * 2 ^ 16 + c1) % D * 2 ^ 16 + c2) / D) :
    q1 * 2 ^ 16 + q2 = (u * 2 ^ 32 + low) / D ∧
      ((u * 2 ^ 16 + c1) % D * 2 ^ 16 + c2) % D = (u * 2 ^ 32 + low) % D := by
  have split1 := Nat.div_add_mod' (u * 2 ^ 16 + c1) D
  set r1 := (u * 2 ^ 16 + c1) % D
  have whole : u * 2 ^ 32 + low = (r1 * 2 ^ 16 + c2) + q1 * 2 ^ 16 * D := by
    rw [← first] at split1
    rw [← join]
    zify at split1 ⊢
    linear_combination (-2 ^ 16) * split1
  rw [whole, Nat.add_mul_div_right _ _ positive, Nat.add_mul_mod_self_right, ← second]
  exact ⟨Nat.add_comm _ _, rfl⟩

/-- The two half quotients by an aligned divisor. -/
theorem alignedDivision_spec {high : UInt32} (low : UInt32) (large : 2 ^ 31 ≤ D.toNat)
    (below : high.toNat < D.toNat) :
    ∃ q1 q2 temp, halfQuotient high (D >>> halfDateBits) (D &&& halfDateMask)
        (low >>> halfDateBits) = .ok q1 ∧
      temp = high * halfUint32Value + low >>> halfDateBits - q1 * D ∧
      halfQuotient temp (D >>> halfDateBits) (D &&& halfDateMask) (low &&& halfDateMask) = .ok q2 ∧
      (q1 * halfUint32Value + q2).toNat = (high.toNat * 2 ^ 32 + low.toNat) / D.toNat ∧
      (temp * halfUint32Value + (low &&& halfDateMask) - q2 * D).toNat =
        (high.toNat * 2 ^ 32 + low.toNat) % D.toNat := by
  have positive : 0 < D.toNat := by omega
  obtain ⟨q1, ran1, quotient1, rest1⟩ := halfDivision_spec large below
    (toNat_shiftRight_half_lt low)
  obtain ⟨temp, hTemp⟩ : ∃ temp, temp = high * halfUint32Value + low >>> halfDateBits - q1 * D :=
    ⟨_, rfl⟩
  rw [← hTemp] at rest1
  obtain ⟨q2, ran2, quotient2, rest2⟩ := halfDivision_spec (u := temp) large
    (by rw [rest1]; exact Nat.mod_lt _ positive) (toNat_and_halfDateMask_lt low)
  rw [rest1] at quotient2 rest2
  obtain ⟨quotient, rest⟩ := two_halves positive (halves_eq low) quotient1 quotient2
  refine ⟨q1, q2, temp, ran1, hTemp, ran2, ?_, rest2.trans rest⟩
  have bound : (high.toNat * 2 ^ 32 + low.toNat) / D.toNat < 2 ^ 32 := by
    have := low.toNat_lt
    apply Nat.div_lt_of_lt_mul
    omega
  rw [UInt32.toNat_add, UInt32.toNat_mul, halfUint32Value_toNat]
  omega

/-- `DivideAndRemainder` divides two digits by one, where the quotient is one digit. -/
theorem divideAndRemainder_spec {highBit : UInt32} (lowBit : UInt32) (nonzero : divisor ≠ 0)
    (below : highBit.toNat < divisor.toNat) :
    ∃ q r, divideAndRemainder highBit lowBit divisor = .ok (q, r) ∧
      q.toNat = (highBit.toNat * 2 ^ 32 + lowBit.toNat) / divisor.toNat ∧
      r.toNat = (highBit.toNat * 2 ^ 32 + lowBit.toNat) % divisor.toNat := by
  obtain ⟨small, large, fits⟩ := countLeadingZeros_spec nonzero
  obtain ⟨aligned, dividend⟩ := align_spec lowBit nonzero below
  rw [← aligned] at large
  have shift : 0 < 2 ^ (countLeadingZeros divisor).toNat := Nat.pow_pos (by norm_num)
  have highBelow : (alignHigh highBit lowBit (countLeadingZeros divisor)).toNat <
      (divisor <<< countLeadingZeros divisor).toNat := by
    have : (highBit.toNat * 2 ^ 32 + lowBit.toNat) * 2 ^ (countLeadingZeros divisor).toNat <
        (divisor <<< countLeadingZeros divisor).toNat * 2 ^ 32 := by
      have bound := lowBit.toNat_lt
      rw [aligned, Nat.mul_right_comm]
      apply Nat.mul_lt_mul_of_pos_right _ shift
      omega
    omega
  obtain ⟨q1, q2, temp, ran1, hTemp, ran2, quotient, rest⟩ :=
    alignedDivision_spec (lowBit <<< countLeadingZeros divisor) large highBelow
  rw [dividend, aligned, Nat.mul_div_mul_right _ _ shift] at quotient
  rw [dividend, aligned, Nat.mul_mod_mul_right] at rest
  refine ⟨q1 * halfUint32Value + q2,
    (temp * halfUint32Value + (lowBit <<< countLeadingZeros divisor &&& halfDateMask) -
      q2 * divisor <<< countLeadingZeros divisor) >>> countLeadingZeros divisor, ?_, quotient, ?_⟩
  · simp only [divideAndRemainder, ran1, ok_bind, ← hTemp, ran2, pure_eq_ok]
  · rw [toNat_shiftRight_bits _ small, rest, Nat.mul_div_cancel _ shift]

/-- For an aligned divisor `DivideAndRemainder` returns also where the quotient is too long. -/
theorem divideAndRemainder_returns (highBit lowBit : UInt32) (large : 2 ^ 31 ≤ divisor.toNat) :
    ∃ result, divideAndRemainder highBit lowBit divisor = .ok result := by
  have nonzero : divisor ≠ 0 := by
    rintro rfl
    exact absurd large (by decide)
  obtain ⟨small, -, fits⟩ := countLeadingZeros_spec nonzero
  have positive : 0 < (divisor <<< countLeadingZeros divisor >>> halfDateBits).toNat := by
    apply toNat_shiftRight_half_pos
    rw [UInt32.toNat_shiftLeft, Nat.mod_eq_of_lt small, Nat.shiftLeft_eq, Nat.mod_eq_of_lt fits]
    exact Nat.le_trans large (Nat.le_mul_of_pos_right _ (Nat.pow_pos (by norm_num)))
  have half := toNat_shiftRight_half_lt (divisor <<< countLeadingZeros divisor)
  exact bind_returns (halfQuotient_returns _ _ _ positive half) fun _ =>
    bind_returns (halfQuotient_returns _ _ _ positive half) fun _ => ⟨_, rfl⟩

/-! ## `ImproveAccuracy` -/

/-- The leading digits of the step `S` are those that `ImproveAccuracy` is given. -/
structure LeadingDigits (S : QuotientStep) (vHighest vHighestNext uHighestNext : UInt32) : Prop where
  base : S.base = 2 ^ 32
  v₁ : S.v₁ = vHighest.toNat
  v₂ : S.v₂ = vHighestNext.toNat
  u₂ : S.u₂ = uHighestNext.toNat

variable {S : QuotientStep} {vHighest vHighestNext uHighestNext : UInt32}

/-- The condition of the loop of `ImproveAccuracy`. -/
theorem accuracy_condition (q r v w : UInt32) :
    ((mul q v).1 > r ∨ ((mul q v).1 = r ∧ (mul q v).2 > w)) ↔
      r.toNat * 2 ^ 32 + w.toNat < q.toNat * v.toNat := by
  have product := mul_spec q v
  have low := (mul q v).2.toNat_lt
  have bound := w.toNat_lt
  rw [gt_iff_lt, gt_iff_lt, UInt32.lt_iff_toNat_lt, UInt32.lt_iff_toNat_lt, ← UInt32.toNat_inj]
  omega

theorem accuracyRound_spec (leading : LeadingDigits S vHighest vHighestNext uHighestNext)
    (estimate : S.Estimate s.1.toNat s.2.toNat) :
    (∃ s' : UInt32 × UInt32, accuracyRound vHighest vHighestNext uHighestNext s = .inl s' ∧
      s.2.toNat < s'.2.toNat ∧ S.Estimate s'.1.toNat s'.2.toNat) ∨
    ∃ q : UInt32, accuracyRound vHighest vHighestNext uHighestNext s = .inr q ∧ S.Near q.toNat := by
  have positive := S.v₁_pos
  rw [leading.v₁] at positive
  have condition := accuracy_condition s.1 s.2 vHighestNext uHighestNext
  simp only [accuracyRound]
  split
  · next overshoot =>
    have large : S.dividend < s.1.toNat * S.divisor := by
      apply estimate.lt_of_overshoot
      rw [leading.base, leading.v₂, leading.u₂]
      exact condition.mp overshoot
    obtain ⟨nonzero, lowered⟩ := estimate.lower large
    rw [leading.v₁] at lowered
    have first : (s.1 - 1).toNat = s.1.toNat - 1 := by
      have := s.1.toNat_lt
      rw [UInt32.toNat_sub]
      simp only [UInt32.reduceToNat]
      omega
    have bound := s.2.toNat_lt
    have bound' := vHighest.toNat_lt
    split
    · next wraps =>
      refine .inr ⟨s.1 - 1, rfl, ?_⟩
      rw [UInt32.lt_iff_toNat_lt, UInt32.toNat_add] at wraps
      rw [first]
      have small := s.1.toNat_lt
      apply lowered.near
      · rw [leading.base]
        omega
      · apply QuotientStep.passes_of_le
        · rw [leading.base]
          omega
        · rw [leading.base]
          omega
    · next fits =>
      rw [UInt32.lt_iff_toNat_lt, UInt32.toNat_add] at fits
      have second : (s.2 + vHighest).toNat = s.2.toNat + vHighest.toNat := by
        rw [UInt32.toNat_add]
        omega
      refine .inl ⟨(s.1 - 1, s.2 + vHighest), rfl, ?_, ?_⟩
      · rw [second]
        omega
      · rw [first, second]
        exact lowered
  · next passes =>
    refine .inr ⟨s.1, rfl, ?_⟩
    rw [condition, ← leading.base, ← leading.v₂, ← leading.u₂] at passes
    apply estimate.near _ (Nat.le_of_not_lt passes)
    rw [leading.base]
    exact Nat.le_of_lt s.1.toNat_lt

/-- `ImproveAccuracy` leaves at most one too many. -/
theorem improveAccuracy_spec (leading : LeadingDigits S vHighest vHighestNext uHighestNext)
    {q r : UInt32} (estimate : S.Estimate q.toNat r.toNat) :
    ∃ q', improveAccuracy vHighest vHighestNext r uHighestNext q = .ok q' ∧ S.Near q'.toNat := by
  have round : ∀ n (s : UInt32 × UInt32),
      (S.Estimate s.1.toNat s.2.toNat ∧ n + s.2.toNat + 1 = 2 ^ 32) →
      (∃ s' m, accuracyRound vHighest vHighestNext uHighestNext s = .inl s' ∧ m < n ∧
        (S.Estimate s'.1.toNat s'.2.toNat ∧ m + s'.2.toNat + 1 = 2 ^ 32)) ∨
      ∃ q', accuracyRound vHighest vHighestNext uHighestNext s = .inr q' ∧ S.Near q'.toNat := by
    rintro n s ⟨estimate, bound⟩
    rcases accuracyRound_spec leading estimate with ⟨s', again, grows, estimate'⟩ | ⟨q', leave, near⟩
    · have := s'.2.toNat_lt
      exact .inl ⟨s', 2 ^ 32 - 1 - s'.2.toNat, again, by omega, estimate', by omega⟩
    · exact .inr ⟨q', leave, near⟩
  have bound := r.toNat_lt
  obtain ⟨q', ran, near⟩ := iter_spec round accuracyRounds (2 ^ 32 - 1 - r.toNat) (q, r)
    ⟨estimate, show 2 ^ 32 - 1 - r.toNat + r.toNat + 1 = 2 ^ 32 by omega⟩
    (by unfold accuracyRounds; omega)
  exact ⟨q', by rw [improveAccuracy, ran, finished_some], near⟩

end BigInt

end ArkRuntime
