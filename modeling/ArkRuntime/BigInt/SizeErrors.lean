import ArkRuntime.BigInt.Power

/-!
# Operations whose results are not longer than their operands

The quotient, the remainder, the negation and the number shifted to the right have no more digits than the
first operand. `Divide` and `Remainder` may ask for one digit more, for the dividend that is moved to the
left.
-/

namespace ArkRuntime

namespace BigInt

variable {x y n : BigInt}

/-- The call does not throw. -/
def Ends (result : Except BigIntFault BigInt) : Prop := ∃ r, result = .ok r

theorem Returns.ends {result : Except BigIntFault BigInt} {v : Int} (returns : Returns result v) :
    Ends result := by
  obtain ⟨r, ran, -⟩ := returns
  exact ⟨r, ran⟩

/-- The shifted number has no more digits than `x`, which says something of a shift to the left only. -/
def ShiftKeepsLength (x n : BigInt) : Prop :=
  n.sign = true → magnitude x.digits * 2 ^ magnitude n.digits < (2 ^ 32) ^ x.length

/-- A shift to the left needs no digit more than `MAXSIZE` for the bits that leave the top digit. -/
def ShiftHasRoom (x n : BigInt) : Prop := n.sign = true → x.length < maxSize ∨ x.isZero = true

theorem signedRightShift_ends_iff (cx : x.Canonical) (cn : n.Canonical)
    (keeps : ShiftKeepsLength x n) : Ends (signedRightShift x n) ↔ ShiftHasRoom x n := by
  by_cases zeroX : x.isZero = true
  · rw [signedRightShift, if_pos (.inl zeroX)]
    exact ⟨fun _ _ => .inr zeroX, fun _ => ⟨x, rfl⟩⟩
  cases sign : n.sign with
  | false =>
    refine ⟨fun _ negative => absurd (sign.symm.trans negative) Bool.false_ne_true, fun _ => ?_⟩
    by_cases zeroN : n.isZero = true
    · rw [signedRightShift, if_pos (.inr zeroN)]
      exact ⟨x, rfl⟩
    · rw [signedRightShift, if_neg (not_or.mpr ⟨zeroX, zeroN⟩), if_neg (by simp [sign])]
      exact (rightShiftHelper_spec cx cn).ends
  | true =>
    have nonzeroX := isZero_eq_false_iff.mp (Bool.eq_false_iff.mpr zeroX)
    have nonzeroN := cn.digits_ne_of_sign sign
    have short : magnitude n.digits < 32 := by
      -- the top digit of `x` leaves the digits if it is moved by 32 bits
      have below := keeps sign
      have top := cx.pow_le_magnitude nonzeroX
      have length := cx.positive
      by_contra large
      have moved : (2 ^ 32) ^ (x.length - 1) * 2 ^ 32 ≤ magnitude x.digits * 2 ^ magnitude n.digits :=
        Nat.mul_le_mul top (Nat.pow_le_pow_right (by norm_num) (Nat.le_of_not_lt large))
      rw [← Nat.pow_succ, Nat.succ_eq_add_one, Nat.sub_add_cancel length] at moved
      exact Nat.lt_irrefl _ (Nat.lt_of_le_of_lt moved below)
    obtain ⟨d, read⟩ := exists_digit (show 0 < n.digits.length from cn.positive)
    have single : n.length ≤ 1 := by
      by_contra long
      have := cn.two_pow_le_magnitude (Nat.lt_of_not_le long)
      omega
    have value := cn.magnitude_of_length_le single read
    have positive := cn.magnitude_pos nonzeroN
    have asked : shiftedLength x d = x.length + 1 := by
      rw [shiftedLength, show dateBits = 32 from rfl, ← value, Nat.div_eq_of_lt short,
        Nat.mod_eq_of_lt short, if_neg (Nat.pos_iff_ne_zero.mp positive)]
      omega
    rw [signedRightShift, if_neg (not_or.mpr ⟨zeroX, by rwa [isZero_iff]⟩), if_pos sign]
    rcases leftShiftHelper_spec cx nonzeroX read with ⟨large, failed⟩ | ⟨small, returns⟩
    · rw [failed]
      refine ⟨?_, fun room => ?_⟩
      · rintro ⟨r, ran⟩
        cases ran
      · rcases room sign with less | zero
        · omega
        · exact absurd zero zeroX
    · exact ⟨fun _ _ => .inl (by omega), fun _ => returns.ends⟩

/-- The four calls return, whatever the operands are, exactly if the division needs no digit more than
    `MAXSIZE`. -/
theorem shorter_results_end_iff (x y n : BigInt) (cx : x.Canonical) (cy : y.Canonical)
    (cn : n.Canonical) (nonzero : y.isZero = false) (keeps : ShiftKeepsLength x n) :
    (Ends (divide x y) ∧ Ends (remainder x y) ∧ Ends (signedRightShift x n) ∧ Ends (unaryMinus x)) ↔
      DivisionFits x y ∧ ShiftHasRoom x n := by
  have shift := signedRightShift_ends_iff cx cn keeps
  have nonzero := isZero_eq_false_iff.mp nonzero
  constructor
  · rintro ⟨divides, -, shifts, -⟩
    refine ⟨by_contra fun full => ?_, shift.mp shifts⟩
    obtain ⟨q, ran⟩ := divides
    rw [(division_throws cx cy full).1] at ran
    cases ran
  · rintro ⟨fits, room⟩
    exact ⟨(divide_spec cx cy nonzero fits).ends, (remainder_spec cx cy nonzero fits).ends,
      shift.mpr room, (unaryMinus_spec cx).ends⟩

theorem shorter_results_end_iff_small :
    let x : BigInt := ⟨true, [5, 7]⟩
    let y : BigInt := ⟨false, [0, 1]⟩
    let n : BigInt := ⟨true, [1]⟩
    (x.Canonical ∧ y.Canonical ∧ n.Canonical ∧ y.isZero = false ∧ ShiftKeepsLength x n) ∧
      ((Ends (divide x y) ∧ Ends (remainder x y) ∧ Ends (signedRightShift x n) ∧ Ends (unaryMinus x)) ↔
        DivisionFits x y ∧ ShiftHasRoom x n) := by
  intro x y n
  have cx : x.Canonical := by decide
  have cy : y.Canonical := by decide
  have cn : n.Canonical := by decide
  have keeps : ShiftKeepsLength x n := fun _ => by decide
  exact ⟨⟨cx, cy, cn, rfl, keeps⟩, shorter_results_end_iff x y n cx cy cn rfl keeps⟩

/-- `2 ** 1048544`, of 32768 digits. -/
def longest : BigInt := ⟨false, List.replicate 32767 0 ++ [1]⟩

theorem length_longest : longest.length = maxSize := by
  rw [length, longest, List.length_append, List.length_replicate]
  rfl

/-- A dividend of `MAXSIZE` digits has no room to be moved to the left. -/
theorem divide_longest_throws :
    let y : BigInt := ⟨false, [0, 1]⟩
    longest.Canonical ∧ y.Canonical ∧ y.isZero = false ∧
      divide longest y = .error sizeExceeded ∧ remainder longest y = .error sizeExceeded := by
  intro y
  have zeros : (List.replicate 32767 (0 : UInt32)).length = 32767 := List.length_replicate
  have cx : longest.Canonical := by
    refine @canonical_of_top _ 1 (Nat.le_of_eq length_longest) ?_ (by decide)
    rw [length_longest]
    show (List.replicate 32767 (0 : UInt32) ++ [1])[32767]? = some 1
    rw [List.getElem?_append_right (Nat.le_of_eq zeros), zeros]
    rfl
  have cy : y.Canonical := by decide
  have several : 1 < y.length := by decide
  have full : ¬DivisionFits longest y := by
    rintro (short | single | less)
    · exact absurd length_longest (Nat.ne_of_lt short)
    · omega
    · have longer := cx.length_le_of_magnitude_le cy.positive less
      rw [length_longest] at longer
      exact absurd longer (by decide)
  exact ⟨cx, cy, rfl, division_throws cx cy full⟩

end BigInt

end ArkRuntime
