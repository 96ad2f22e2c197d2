import ArkRuntime.BigInt.Division

/-!
# `Exponentiate`

The powers of two have a fast path that writes a single digit (`powerOfTwo_spec`); every other power
is a product of squares.
-/

namespace ArkRuntime

namespace BigInt

variable {x y base exponent r : BigInt} {result : Except BigIntFault BigInt}

/-! ## Results in canonical form -/

/-- What the call returns, if it returns, is in canonical form. -/
def YieldsCanonical (result : Except BigIntFault BigInt) : Prop := ∀ r, result = .ok r → r.Canonical

theorem yieldsCanonical_ok (canonical : x.Canonical) : YieldsCanonical (.ok x) := by
  intro r eq
  cases eq
  exact canonical

theorem yieldsCanonical_error (fault : BigIntFault) : YieldsCanonical (.error fault) := by
  intro r eq
  cases eq

theorem yieldsCanonical_bind {α : Type} {first : Except BigIntFault α}
    {next : α → Except BigIntFault BigInt}
    (after : ∀ a, first = .ok a → YieldsCanonical (next a)) : YieldsCanonical (first >>= next) := by
  intro r ran
  obtain ⟨a, ran1, ran2⟩ := bind_eq_ok.mp ran
  exact after a ran1 r ran2

theorem Returns.yieldsCanonical {v : Int} (returns : Returns result v) : YieldsCanonical result := by
  obtain ⟨r, rfl, canonical, -⟩ := returns
  exact yieldsCanonical_ok canonical

theorem ReturnsOr.yieldsCanonical {fault : BigIntFault} {v : Int}
    (returns : ReturnsOr fault result v) : YieldsCanonical result := by
  rcases returns with rfl | returns
  · exact yieldsCanonical_error fault
  · exact returns.yieldsCanonical

theorem yieldsCanonical_rightTruncate (size : x.length ≤ maxSize) :
    YieldsCanonical (rightTruncate x) := fun _ ran => rightTruncate_canonical size ran

/-! ## Powers of two -/

theorem toNat_one_shiftLeft (e : UInt32) : ((1 : UInt32) <<< (e % 32)).toNat = 2 ^ (e.toNat % 32) := by
  have small : e.toNat % 32 < 32 := Nat.mod_lt _ (by norm_num)
  have shift : (e % 32).toNat = e.toNat % 32 := by
    rw [UInt32.toNat_mod]
    rfl
  rw [UInt32.toNat_shiftLeft, shift, Nat.mod_eq_of_lt small, Nat.shiftLeft_eq]
  simp only [UInt32.reduceToNat, Nat.one_mul]
  exact Nat.mod_eq_of_lt (Nat.pow_lt_pow_right (by norm_num) small)

theorem odd_iff (e : UInt32) : (e &&& 1 != 0) = decide (e.toNat % 2 = 1) := by
  have low : (e &&& 1).toNat = e.toNat % 2 := by
    rw [UInt32.toNat_and]
    simp [Nat.and_one_is_mod]
  rw [Bool.eq_iff_iff, bne_iff_ne, decide_eq_true_iff, ne_eq, ← UInt32.toNat_inj, low]
  simp only [UInt32.toNat_zero]
  omega

theorem signum_mul_two_pow (sign : Bool) (e : UInt32) :
    (signum sign * 2) ^ e.toNat =
      signum (if sign then e &&& 1 != 0 else false) * ((2 ^ e.toNat : Nat) : Int) := by
  rcases sign with _ | _
  · simp [signum]
  · rw [mul_pow, odd_iff]
    simp only [signum, if_true]
    rcases Nat.mod_two_eq_zero_or_one e.toNat with even | odd
    · rw [(Nat.even_iff.mpr even).neg_one_pow]
      simp [even]
    · rw [(Nat.odd_iff.mpr odd).neg_one_pow]
      simp [odd]

/-- The fast path for 2 and -2. -/
theorem powerOfTwo_spec (sign : Bool) (e : UInt32) :
    (maxSize ≤ e.toNat / 32 ∧ powerOfTwo sign e = .error sizeExceeded) ∨
      (e.toNat / 32 < maxSize ∧ Returns (powerOfTwo sign e) ((signum sign * 2) ^ e.toNat)) := by
  rcases createBigint_cases (e.toNat / 32 + 1) with ⟨large, failed⟩ | ⟨small, created⟩
  · refine .inl ⟨by omega, ?_⟩
    rw [powerOfTwo, show dateBits = 32 from rfl, failed]
    rfl
  · refine .inr ⟨by omega, ?_⟩
    have inside : e.toNat / 32 < (List.replicate (e.toNat / 32 + 1) (0 : UInt32)).length := by simp
    set out := (List.replicate (e.toNat / 32 + 1) (0 : UInt32)).set (e.toNat / 32) (1 <<< (e % 32))
      with hOut
    have len : out.length = e.toNat / 32 + 1 := by simp [hOut]
    have value : magnitude out = 2 ^ e.toNat := by
      rw [hOut, magnitude_set_last _ (by simp), List.take_replicate, magnitude_replicate,
        toNat_one_shiftLeft, two_pow_split e.toNat, Nat.zero_add]
    refine ⟨⟨if sign then e &&& 1 != 0 else false, out⟩, ?_, ?_, ?_⟩
    · simp only [powerOfTwo, show dateBits = 32 from rfl, created, ok_bind, Nat.add_sub_cancel,
        setDigit_of_lt _ inside, pure_eq_ok, hOut]
    · refine @canonical_of_top _ (1 <<< (e % 32)) ?_ ?_ ?_
      · show out.length ≤ maxSize
        omega
      · show out[out.length - 1]? = _
        rw [len, Nat.add_sub_cancel, hOut, List.getElem?_set_self inside]
      · intro zero
        have := congrArg UInt32.toNat zero
        rw [toNat_one_shiftLeft] at this
        exact absurd this (Nat.pos_iff_ne_zero.mp (Nat.pow_pos (by norm_num)))
    · rw [toInt_eq, value, signum_mul_two_pow]

/-! ## Every power -/

/-- The numbers of the loop are in canonical form. -/
structure Power.AllCanonical (s : Power) : Prop where
  temp : s.temp.Canonical
  result : ∀ r, s.result = some r → r.Canonical

theorem powerRound_canonical {s s' : Power} (before : s.AllCanonical)
    (ran : powerRound s = .ok s') : s'.AllCanonical := by
  obtain ⟨temp, ranTemp, ran⟩ := bind_eq_ok.mp ran
  have canonical : temp.Canonical := (multiply_spec before.temp before.temp).yieldsCanonical _ ranTemp
  split at ran
  · obtain ⟨result, ranResult, eq⟩ := bind_eq_ok.mp ran
    cases eq
    refine ⟨canonical, fun r eq => ?_⟩
    cases eq
    rcases h : s.result with _ | old
    · rw [h] at ranResult
      cases ranResult
      exact canonical
    · rw [h] at ranResult
      exact (multiply_spec (before.result old h) canonical).yieldsCanonical _ ranResult
  · cases ran
    exact ⟨canonical, before.result⟩

theorem exponentiate_yieldsCanonical (cb : base.Canonical) :
    YieldsCanonical (exponentiate base exponent) := by
  unfold exponentiate
  split
  · exact yieldsCanonical_error _
  split
  · rw [int32ToBigInt_one]
    exact yieldsCanonical_ok (canonical_single (by decide))
  split
  · exact yieldsCanonical_ok cb
  apply yieldsCanonical_bind
  intro expValue _
  apply yieldsCanonical_bind
  intro baseValue _
  split
  · split
    · exact (unaryMinus_spec cb).yieldsCanonical
    · exact yieldsCanonical_ok cb
  split
  · exact yieldsCanonical_error _
  split
  · rcases powerOfTwo_spec base.sign expValue with ⟨-, failed⟩ | ⟨-, returns⟩
    · rw [failed]
      exact yieldsCanonical_error _
    · exact returns.yieldsCanonical
  apply yieldsCanonical_bind
  intro power ran
  have start : Power.AllCanonical
      ⟨if expValue &&& 1 ≠ 0 then some base else none, base, expValue >>> 1⟩ := by
    refine ⟨cb, fun r eq => ?_⟩
    split at eq
    · cases eq
      exact cb
    · cases eq
  obtain ⟨all, -⟩ := whileLoop_ok (I := Power.AllCanonical)
    (fun s s' before _ ran => powerRound_canonical before ran) _ _ _ start ran
  split
  · next result eq => exact yieldsCanonical_ok (all.result result eq)
  · exact yieldsCanonical_error _

end BigInt

end ArkRuntime
