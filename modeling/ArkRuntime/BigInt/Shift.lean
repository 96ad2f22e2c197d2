import ArkRuntime.BigInt.Bitwise

/-!
# The shifts

A digit moved by less than its width falls into two digits (`shiftLeft_digit`); the loops to the
left and to the right both rest on that. `RightShiftHelper` rounds down and takes shift counts of
any length. `LeftShiftHelper` reads the lowest digit of the shift count only.
-/

namespace ArkRuntime

namespace BigInt

variable {x y : BigInt} {xs digits fresh : List UInt32} {i n digitMove : Nat} {bits : UInt32}

/-! ## One digit -/

theorem toNat_sub_bits (small : bits.toNat < 32) : ((32 : UInt32) - bits).toNat = 32 - bits.toNat := by
  rw [UInt32.toNat_sub]
  simp only [UInt32.reduceToNat]
  omega

theorem toNat_shiftRight_bits (v : UInt32) (small : bits.toNat < 32) :
    (v >>> bits).toNat = v.toNat / 2 ^ bits.toNat := by
  rw [UInt32.toNat_shiftRight, Nat.mod_eq_of_lt small, Nat.shiftRight_eq_div_pow]

/-- A digit and a carry, moved to the left: the digit that stays and the new carry. -/
theorem shiftLeft_digit (v c : UInt32) (positive : 0 < bits.toNat) (small : bits.toNat < 32)
    (carry : c.toNat < 2 ^ bits.toNat) :
    ((v <<< bits) ||| c).toNat + 2 ^ 32 * (v >>> (32 - bits)).toNat =
        v.toNat * 2 ^ bits.toNat + c.toNat ∧
      (v >>> (32 - bits)).toNat < 2 ^ bits.toNat := by
  have widths : 2 ^ (32 - bits.toNat) * 2 ^ bits.toNat = 2 ^ 32 := by
    rw [← Nat.pow_add]
    congr 1
    omega
  have high : (v >>> (32 - bits)).toNat = v.toNat / 2 ^ (32 - bits.toNat) := by
    rw [toNat_shiftRight_bits v (by rw [toNat_sub_bits small]; omega), toNat_sub_bits small]
  have low : (v <<< bits).toNat = 2 ^ bits.toNat * (v.toNat % 2 ^ (32 - bits.toNat)) := by
    rw [UInt32.toNat_shiftLeft, Nat.mod_eq_of_lt small, Nat.shiftLeft_eq, ← widths,
      Nat.mul_mod_mul_right, Nat.mul_comm]
  have split := Nat.mod_add_div v.toNat (2 ^ (32 - bits.toNat))
  constructor
  · rw [UInt32.toNat_or, low, ← Nat.two_pow_add_eq_or_of_lt carry, high, ← widths]
    calc 2 ^ bits.toNat * (v.toNat % 2 ^ (32 - bits.toNat)) + c.toNat +
          2 ^ (32 - bits.toNat) * 2 ^ bits.toNat * (v.toNat / 2 ^ (32 - bits.toNat))
        = (v.toNat % 2 ^ (32 - bits.toNat) +
            2 ^ (32 - bits.toNat) * (v.toNat / 2 ^ (32 - bits.toNat))) * 2 ^ bits.toNat +
            c.toNat := by ring
      _ = v.toNat * 2 ^ bits.toNat + c.toNat := by rw [split]
  · rw [high]
    apply Nat.div_lt_of_lt_mul
    rw [widths]
    exact v.toNat_lt

/-! ## To the left -/

/-- The digits of `xs` below `index` are moved up; those above are still to come. -/
structure MovedUp (bits : UInt32) (xs fresh : List UInt32) (digitMove index : Nat) (s : Carried) :
    Prop where
  length : s.digits.length = fresh.length
  rest : s.digits.drop (index + digitMove) = fresh.drop (index + digitMove)
  carry : s.carry.toNat < 2 ^ bits.toNat
  value : magnitude (s.digits.take (index + digitMove)) +
      (2 ^ 32) ^ (index + digitMove) * s.carry.toNat =
    (2 ^ 32) ^ digitMove * (2 ^ bits.toNat * magnitude (xs.take index))

theorem shiftLeftRound_spec {s : Carried} (positive : 0 < bits.toNat) (small : bits.toNat < 32)
    (insideX : i < xs.length) (inside : i + digitMove < fresh.length)
    (before : MovedUp bits xs fresh digitMove i s) :
    ∃ s', shiftLeftRound bits xs digitMove i s = .ok s' ∧
      MovedUp bits xs fresh digitMove (i + 1) s' := by
  obtain ⟨len, rest, carry, value⟩ := before
  obtain ⟨v, read⟩ := exists_digit insideX
  obtain ⟨step, carry'⟩ := shiftLeft_digit v s.carry positive small carry
  have inside' : i + digitMove < s.digits.length := by omega
  refine ⟨⟨s.digits.set (i + digitMove) ((v <<< bits) ||| s.carry), v >>> (32 - bits)⟩, ?_, ?_⟩
  · simp only [shiftLeftRound, getDigit_eq read, ok_bind, setDigit_of_lt _ inside', pure_eq_ok]
  · refine ⟨by simpa using len, ?_, carry', ?_⟩
    · rw [show i + 1 + digitMove = i + digitMove + 1 by omega]
      exact drop_succ_of_drop rest _
    · rw [show i + 1 + digitMove = i + digitMove + 1 by omega, magnitude_take_set _ inside',
        magnitude_take_succ read]
      zify at value step ⊢
      linear_combination value + (2 ^ 32) ^ (i + digitMove) * step

/-- The digits of `xs`, moved up by `digitMove` digits and `bits` bits into zeros. -/
theorem shiftLeftDigits_spec (positive : 0 < bits.toNat) (small : bits.toNat < 32)
    (room : xs.length + digitMove ≤ n)
    (fits : (2 ^ 32) ^ digitMove * (2 ^ bits.toNat * magnitude xs) < (2 ^ 32) ^ n) :
    ∃ out, shiftLeftDigits bits xs digitMove (List.replicate n 0) = .ok out ∧ out.length = n ∧
      magnitude out = (2 ^ 32) ^ digitMove * (2 ^ bits.toNat * magnitude xs) := by
  have start : MovedUp bits xs (List.replicate n 0) digitMove 0 ⟨List.replicate n 0, 0⟩ :=
    ⟨rfl, rfl, by simp, by simp [magnitude_replicate]⟩
  obtain ⟨s, ran, len, rest, -, value⟩ := forRange_spec
    (I := MovedUp bits xs (List.replicate n 0) digitMove) 0 xs.length start
    fun i s _ below inv => shiftLeftRound_spec positive small (by omega)
      (by rw [List.length_replicate]; omega) inv
  rw [Nat.zero_add] at rest value
  rw [magnitude_take_length] at value
  rw [List.length_replicate] at len
  have split := words.value_split s.digits (xs.length + digitMove)
  rw [rest] at split
  change magnitude s.digits = magnitude (s.digits.take (xs.length + digitMove)) +
    _ * magnitude ((List.replicate n 0).drop (xs.length + digitMove)) at split
  rw [drop_replicate_zero, Nat.mul_zero, Nat.add_zero] at split
  unfold shiftLeftDigits
  rw [ran, ok_bind]
  by_cases nothing : s.carry = 0
  · rw [if_neg (by simpa using nothing)]
    refine ⟨s.digits, rfl, len, ?_⟩
    rw [nothing] at value
    rw [split]
    simpa using value
  · rw [if_pos nothing]
    have one : 1 ≤ s.carry.toNat := Nat.pos_of_ne_zero fun zero => nothing (UInt32.toNat_inj.mp zero)
    -- the carry is part of a number that fits
    have inside : xs.length + digitMove < n := by
      by_contra outside
      have : (2 ^ 32) ^ n ≤ (2 ^ 32) ^ (xs.length + digitMove) * s.carry.toNat :=
        Nat.le_trans (Nat.pow_le_pow_right (by norm_num) (Nat.le_of_not_lt outside))
          (Nat.le_mul_of_pos_right _ one)
      omega
    obtain ⟨old, read⟩ := exists_digit (show xs.length + digitMove < s.digits.length by omega)
    have oldZero : old.toNat = 0 := by
      have same : s.digits[xs.length + digitMove]? = (List.replicate n 0)[xs.length + digitMove]? := by
        have := congrArg (fun ds => ds[0]?) rest
        simpa only [List.getElem?_drop, Nat.add_zero] using this
      rw [read, List.getElem?_replicate, if_pos inside] at same
      rw [Option.some.inj same]
      rfl
    have replaced := magnitude_set s.carry read
    refine ⟨_, setDigit_of_lt _ (by omega), by simpa using len, ?_⟩
    rw [oldZero, Nat.mul_zero, Nat.add_zero, split] at replaced
    omega

theorem moveRound_spec (above : digitMove ≤ i) (below : i < digitMove + xs.length)
    (len : digits.length = digitMove + xs.length)
    (value : magnitude (digits.take i) = (2 ^ 32) ^ digitMove * magnitude (xs.take (i - digitMove))) :
    ∃ out, moveRound xs digitMove i digits = .ok out ∧ out.length = digitMove + xs.length ∧
      magnitude (out.take (i + 1)) =
        (2 ^ 32) ^ digitMove * magnitude (xs.take (i + 1 - digitMove)) := by
  obtain ⟨d, read⟩ := exists_digit (show i - digitMove < xs.length by omega)
  have inside : i < digits.length := by omega
  refine ⟨digits.set i d, ?_, by simpa using len, ?_⟩
  · simp only [moveRound, getDigit_eq read, ok_bind, setDigit_of_lt _ inside]
  · have exponents : (2 ^ 32) ^ i = (2 ^ 32) ^ digitMove * (2 ^ 32) ^ (i - digitMove) := by
      rw [← pow_add]
      congr 1
      omega
    rw [magnitude_take_set d inside, value, show i + 1 - digitMove = i - digitMove + 1 by omega,
      magnitude_take_succ read, exponents]
    ring

/-- The word-aligned move. -/
theorem moveLoop_spec (xs : List UInt32) (digitMove : Nat) :
    ∃ out, forRange (moveRound xs digitMove) digitMove xs.length
        (List.replicate (digitMove + xs.length) 0) = .ok out ∧
      out.length = digitMove + xs.length ∧ magnitude out = (2 ^ 32) ^ digitMove * magnitude xs := by
  have start : (List.replicate (digitMove + xs.length) (0 : UInt32)).length =
        digitMove + xs.length ∧
      magnitude ((List.replicate (digitMove + xs.length) 0).take digitMove) =
        (2 ^ 32) ^ digitMove * magnitude (xs.take (digitMove - digitMove)) := by
    simp [magnitude_replicate]
  obtain ⟨out, ran, len, value⟩ := forRange_spec
    (I := fun i (out : List UInt32) => out.length = digitMove + xs.length ∧
      magnitude (out.take i) = (2 ^ 32) ^ digitMove * magnitude (xs.take (i - digitMove)))
    digitMove xs.length start fun i out above below inv => moveRound_spec above below inv.1 inv.2
  refine ⟨out, ran, len, ?_⟩
  rw [List.take_of_length_le (by omega), Nat.add_sub_cancel_left, magnitude_take_length] at value
  exact value

theorem two_pow_split (m : Nat) : 2 ^ m = (2 ^ 32) ^ (m / 32) * 2 ^ (m % 32) := by
  rw [← pow_mul, ← pow_add, Nat.div_add_mod]

/-- The digits that `LeftShiftHelper` asks for, where `d` is the lowest digit of the shift count. -/
def shiftedLength (x : BigInt) (d : UInt32) : Nat :=
  d.toNat / dateBits + x.length + if d.toNat % dateBits = 0 then 0 else 1

theorem moveDigitsUp_spec (xs : List UInt32) (m : Nat) :
    ∃ out, moveDigitsUp xs (m / 32) (m % 32)
        (List.replicate (m / 32 + xs.length + if m % 32 = 0 then 0 else 1) 0) = .ok out ∧
      out.length = m / 32 + xs.length + (if m % 32 = 0 then 0 else 1) ∧
      magnitude out = magnitude xs * 2 ^ m := by
  rw [two_pow_split m]
  unfold moveDigitsUp
  by_cases aligned : m % 32 = 0
  · rw [if_pos aligned, if_pos aligned, Nat.add_zero, List.length_replicate,
      Nat.add_sub_cancel_left, aligned]
    obtain ⟨out, ran, len, value⟩ := moveLoop_spec xs (m / 32)
    exact ⟨out, ran, len, by rw [value]; ring⟩
  · rw [if_neg aligned, if_neg aligned]
    have bits : (UInt32.ofNat (m % 32)).toNat = m % 32 := by
      rw [UInt32.toNat_ofNat']
      omega
    have fits : (2 ^ 32) ^ (m / 32) * (2 ^ (UInt32.ofNat (m % 32)).toNat * magnitude xs) <
        (2 ^ 32) ^ (m / 32 + xs.length + 1) := by
      rw [bits, show m / 32 + xs.length + 1 = m / 32 + (1 + xs.length) by omega, pow_add _ (m / 32),
        pow_add _ 1]
      apply Nat.mul_lt_mul_of_pos_left _ (Nat.pow_pos (by norm_num))
      apply Nat.mul_lt_mul'' _ (magnitude_lt xs)
      rw [pow_one]
      exact Nat.pow_lt_pow_right (by norm_num) (Nat.mod_lt _ (by norm_num))
    obtain ⟨out, ran, len, value⟩ := shiftLeftDigits_spec (by rw [bits]; omega)
      (by rw [bits]; omega) (show xs.length + m / 32 ≤ m / 32 + xs.length + 1 by omega) fits
    rw [bits] at value
    exact ⟨out, ran, len, by rw [value]; ring⟩

/-- `LeftShiftHelper` looks at the lowest digit of the shift count only. -/
theorem leftShiftHelper_spec {d : UInt32} (cx : x.Canonical) (nonzero : x.digits ≠ [0])
    (read : y.digits[0]? = some d) :
    (maxSize < shiftedLength x d ∧ leftShiftHelper x y = .error sizeExceeded) ∨
      (shiftedLength x d ≤ maxSize ∧ Returns (leftShiftHelper x y) (x.toInt * 2 ^ d.toNat)) := by
  have notZero := isZero_eq_false_iff.mpr nonzero
  simp only [leftShiftHelper, notZero, getDigit_eq read, ok_bind]
  rcases createBigint_cases (shiftedLength x d) with ⟨large, failed⟩ | ⟨small, created⟩
  · refine .inl ⟨large, ?_⟩
    rw [shiftedLength] at failed
    simp only [failed]
    rfl
  refine .inr ⟨small, ?_⟩
  obtain ⟨out, ran, len, value⟩ := moveDigitsUp_spec x.digits d.toNat
  have ran' : moveDigitsUp x.digits (d.toNat / dateBits) (d.toNat % dateBits)
    (List.replicate (shiftedLength x d) 0) = .ok out := ran
  have len' : out.length = shiftedLength x d := len
  have positive : 0 < shiftedLength x d :=
    Nat.lt_of_lt_of_le cx.positive (Nat.le_trans (Nat.le_add_left _ _) (Nat.le_add_right _ _))
  rw [shiftedLength] at created ran'
  simp only [created, ok_bind, ran']
  have product : x.toInt * 2 ^ d.toNat = signum x.sign * magnitude out := by
    rw [toInt_eq, value]
    push_cast
    ring
  rw [product]
  exact rightTruncate_digits x.sign (by omega) (by omega)

/-! ## To the right -/

/-- `source` reads the digits `xs` that are moved down into `fresh`, also where part of `fresh` is
    already overwritten. -/
structure Reads (source : List UInt32 → List UInt32) (xs fresh : List UInt32) (digitMove : Nat) :
    Prop where
  initial : source fresh = xs
  later : ∀ out j k, out.drop j = fresh.drop j → j + digitMove ≤ k → (source out)[k]? = xs[k]?

theorem reads_const (xs fresh : List UInt32) (digitMove : Nat) :
    Reads (fun _ => xs) xs fresh digitMove := ⟨rfl, fun _ _ _ _ _ => rfl⟩

theorem getElem?_of_drop_eq {j k : Nat} (same : xs.drop j = digits.drop j) (above : j ≤ k) :
    xs[k]? = digits[k]? := by
  have := congrArg (fun ds => ds[k - j]?) same
  simpa only [List.getElem?_drop, Nat.add_sub_cancel' above] using this

theorem reads_id (xs : List UInt32) : Reads id xs xs 0 :=
  ⟨rfl, fun _ _ _ same above => getElem?_of_drop_eq same (by omega)⟩

variable {source : List UInt32 → List UInt32}

/-- The digits of `xs` from `digitMove` on, without their lowest `bits` bits, are moved down up to
    `i`; `lost` are the bits below. -/
structure MovedDown (bits : UInt32) (xs fresh : List UInt32) (digitMove lost i : Nat) (s : Carried) :
    Prop where
  length : s.digits.length = fresh.length
  rest : s.digits.drop i = fresh.drop i
  carry : s.carry.toNat < 2 ^ (32 - bits.toNat)
  value : 2 ^ bits.toNat * (magnitude (s.digits.take i) + (2 ^ 32) ^ i * s.carry.toNat) + lost =
    magnitude ((xs.drop digitMove).take (i + 1))

theorem sub_sub_bits (small : bits.toNat < 32) : 32 - (32 - bits) = bits := by
  rw [← UInt32.toNat_inj, UInt32.toNat_sub, toNat_sub_bits small]
  simp only [UInt32.reduceToNat]
  omega

theorem shiftRightRound_spec {s : Carried} {lost : Nat} (reads : Reads source xs fresh digitMove)
    (positive : 0 < bits.toNat) (small : bits.toNat < 32) (insideX : i + digitMove + 1 < xs.length)
    (inside : i < fresh.length) (before : MovedDown bits xs fresh digitMove lost i s) :
    ∃ s', shiftRightRound source digitMove bits i s = .ok s' ∧
      MovedDown bits xs fresh digitMove lost (i + 1) s' := by
  obtain ⟨len, rest, carry, value⟩ := before
  obtain ⟨v, read⟩ := exists_digit insideX
  have readSource : (source s.digits)[i + digitMove + 1]? = some v := by
    rw [reads.later s.digits i _ rest (by omega), read]
  have readDrop : (xs.drop digitMove)[i + 1]? = some v := by
    rw [List.getElem?_drop, ← read]
    congr 1
    omega
  -- the digit that is written holds the low bits of `v` above the carry
  have width := toNat_sub_bits small
  obtain ⟨step, carry'⟩ := @shiftLeft_digit (32 - bits) v s.carry (by omega) (by omega)
    (by rw [width]; exact carry)
  rw [sub_sub_bits small, width] at step
  have inside' : i < s.digits.length := by omega
  have widths : 2 ^ bits.toNat * 2 ^ (32 - bits.toNat) = 2 ^ 32 := by
    rw [← pow_add]
    congr 1
    omega
  refine ⟨⟨s.digits.set i ((v <<< (32 - bits)) ||| s.carry), v >>> bits⟩, ?_, ?_⟩
  · simp only [shiftRightRound, getDigit_eq readSource, ok_bind, setDigit_of_lt _ inside', pure_eq_ok]
  · refine ⟨by simpa using len, drop_succ_of_drop rest _, ?_, ?_⟩
    · rwa [sub_sub_bits small, width] at carry'
    · rw [magnitude_take_set _ inside', magnitude_take_succ readDrop]
      zify at value step widths ⊢
      linear_combination value + 2 ^ bits.toNat * (2 ^ 32) ^ i * step +
        (2 ^ 32) ^ i * v.toNat * widths

/-- The digits `out` are those of `xs` moved down by `digitMove` digits and `bits` bits, over the
    digits `fresh`. -/
structure ShiftedDown (xs fresh : List UInt32) (digitMove bits : Nat) (out : List UInt32) :
    Prop where
  length : out.length = fresh.length
  rest : out.drop (xs.length - digitMove) = fresh.drop (xs.length - digitMove)
  value : magnitude (out.take (xs.length - digitMove)) =
    magnitude xs / ((2 ^ 32) ^ digitMove * 2 ^ bits)

theorem magnitude_drop (xs : List UInt32) (i : Nat) :
    magnitude (xs.drop i) = magnitude xs / (2 ^ 32) ^ i := (words.value_div_pow xs i).symm

theorem shiftRightLoop_spec (reads : Reads source xs fresh digitMove) (positive : 0 < bits.toNat)
    (small : bits.toNat < 32) (inside : digitMove < xs.length)
    (room : xs.length - digitMove ≤ fresh.length) :
    ∃ out, rightShift fresh source digitMove bits = .ok out ∧
      ShiftedDown xs fresh digitMove bits.toNat out := by
  obtain ⟨first, read⟩ := exists_digit inside
  have readDrop : (xs.drop digitMove)[0]? = some first := by rw [List.getElem?_drop, Nat.add_zero, read]
  have notZero : bits ≠ 0 := fun eq => by
    rw [eq] at positive
    exact absurd positive (by decide)
  have shifted := toNat_shiftRight_bits first small
  have start : MovedDown bits xs fresh digitMove (first.toNat % 2 ^ bits.toNat) 0
      ⟨fresh, first >>> bits⟩ := by
    refine ⟨rfl, rfl, ?_, ?_⟩
    · rw [shifted]
      apply Nat.div_lt_of_lt_mul
      rw [← pow_add, Nat.add_sub_cancel' (Nat.le_of_lt small)]
      exact first.toNat_lt
    · rw [magnitude_take_succ readDrop, shifted]
      simpa using Nat.div_add_mod _ _
  obtain ⟨last, size⟩ : ∃ last, xs.length - digitMove = last + 1 :=
    ⟨xs.length - digitMove - 1, by omega⟩
  obtain ⟨s, ran, len, rest, -, value⟩ := forRange_spec
    (I := MovedDown bits xs fresh digitMove (first.toNat % 2 ^ bits.toNat)) 0 last start
    fun i s _ below inv => shiftRightRound_spec reads positive small (by omega) (by omega) inv
  rw [Nat.zero_add] at rest value
  have inside' : last < s.digits.length := by omega
  refine ⟨s.digits.set last s.carry, ?_, by simpa using len, ?_, ?_⟩
  · simp only [rightShift, reads.initial, if_neg notZero, getDigit_eq read, ok_bind, size,
      Nat.add_sub_cancel, ran, setDigit_of_lt _ inside']
  · rw [size]
    exact drop_succ_of_drop rest s.carry
  · have whole : (xs.drop digitMove).take (last + 1) = xs.drop digitMove :=
      List.take_of_length_le (by rw [List.length_drop]; omega)
    rw [whole] at value
    rw [size, magnitude_take_set _ inside', ← Nat.div_div_eq_div_mul, ← magnitude_drop, ← value,
      Nat.mul_add_div (Nat.pow_pos (by norm_num)),
      Nat.div_eq_of_lt (Nat.mod_lt _ (Nat.pow_pos (by norm_num))), Nat.add_zero]

/-- The word-aligned digits below `i` are moved down. -/
structure MovedDownDigits (xs fresh : List UInt32) (digitMove i : Nat) (out : List UInt32) :
    Prop where
  length : out.length = fresh.length
  rest : out.drop (i - digitMove) = fresh.drop (i - digitMove)
  value : magnitude (out.take (i - digitMove)) = magnitude ((xs.drop digitMove).take (i - digitMove))

theorem moveDownRound_spec (reads : Reads source xs fresh digitMove) (above : digitMove ≤ i)
    (insideX : i < xs.length) (inside : i - digitMove < fresh.length)
    (before : MovedDownDigits xs fresh digitMove i digits) :
    ∃ out, moveDownRound source digitMove i digits = .ok out ∧
      MovedDownDigits xs fresh digitMove (i + 1) out := by
  obtain ⟨len, rest, value⟩ := before
  obtain ⟨d, read⟩ := exists_digit insideX
  have readSource : (source digits)[i]? = some d := by
    rw [reads.later digits (i - digitMove) i rest (by omega), read]
  have readDrop : (xs.drop digitMove)[i - digitMove]? = some d := by
    rw [List.getElem?_drop, Nat.add_sub_cancel' above, read]
  have inside' : i - digitMove < digits.length := by omega
  have next : i + 1 - digitMove = i - digitMove + 1 := by omega
  refine ⟨digits.set (i - digitMove) d, ?_, by simpa using len, ?_, ?_⟩
  · simp only [moveDownRound, getDigit_eq readSource, ok_bind, setDigit_of_lt _ inside']
  · rw [next]
    exact drop_succ_of_drop rest d
  · rw [next, magnitude_take_set d inside', magnitude_take_succ readDrop, value]

theorem moveDownLoop_spec (reads : Reads source xs fresh digitMove) (inside : digitMove < xs.length)
    (room : xs.length - digitMove ≤ fresh.length) :
    ∃ out, rightShift fresh source digitMove 0 = .ok out ∧ ShiftedDown xs fresh digitMove 0 out := by
  have start : MovedDownDigits xs fresh digitMove digitMove fresh := ⟨rfl, rfl, by simp⟩
  obtain ⟨out, ran, len, rest, value⟩ := forRange_spec
    (I := MovedDownDigits xs fresh digitMove) digitMove (xs.length - digitMove) start
    fun i out above below inv => moveDownRound_spec reads above (by omega) (by omega) inv
  rw [Nat.add_sub_cancel' (Nat.le_of_lt inside)] at rest value
  refine ⟨out, ?_, len, rest, ?_⟩
  · simp only [rightShift, reads.initial, if_true, ran]
  · have whole : (xs.drop digitMove).take (xs.length - digitMove) = xs.drop digitMove :=
      List.take_of_length_le (by rw [List.length_drop])
    rw [value, whole, magnitude_drop, pow_zero, Nat.mul_one]

/-- `RightShift` divides by a power of two. -/
theorem rightShift_spec (reads : Reads source xs fresh digitMove) (small : bits.toNat < 32)
    (inside : digitMove < xs.length) (room : xs.length - digitMove ≤ fresh.length) :
    ∃ out, rightShift fresh source digitMove bits = .ok out ∧
      ShiftedDown xs fresh digitMove bits.toNat out := by
  rcases Nat.eq_zero_or_pos bits.toNat with aligned | positive
  · have zero : bits = 0 := UInt32.toNat_inj.mp aligned
    rw [zero]
    exact moveDownLoop_spec reads inside room
  · exact shiftRightLoop_spec reads positive small inside room

/-- Into zeros, the whole result is the quotient. -/
theorem ShiftedDown.magnitude_eq {out : List UInt32} {bits : Nat}
    (shifted : ShiftedDown xs (List.replicate n 0) digitMove bits out) :
    magnitude out = magnitude xs / ((2 ^ 32) ^ digitMove * 2 ^ bits) := by
  have split := words.value_split out (xs.length - digitMove)
  rw [shifted.rest] at split
  change magnitude out = magnitude (out.take (xs.length - digitMove)) +
    _ * magnitude ((List.replicate n 0).drop (xs.length - digitMove)) at split
  rw [split, drop_replicate_zero, Nat.mul_zero, Nat.add_zero, shifted.value]

/-! ## Rounding down -/

theorem anyNonzero_spec (xs : List UInt32) (n i : Nat) (inside : i + n ≤ xs.length) :
    anyNonzero xs i n = .ok (decide (magnitude ((xs.drop i).take n) ≠ 0)) := by
  induction n generalizing i with
  | zero => rfl
  | succ n ih =>
    have here : i < xs.length := by omega
    have read : xs[i]? = some xs[i] := List.getElem?_eq_getElem here
    rw [List.drop_eq_getElem_cons here, List.take_succ_cons, magnitude_cons]
    simp only [anyNonzero, getDigit_eq read, ok_bind]
    by_cases zero : xs[i] = 0
    · rw [if_neg (by simpa using zero), ih (i + 1) (by omega), zero]
      congr 1
      rw [decide_eq_decide]
      simp only [UInt32.toNat_zero]
      omega
    · have positive : 0 < xs[i].toNat :=
        Nat.pos_of_ne_zero fun eq => zero (UInt32.toNat_inj.mp eq)
      rw [if_pos zero, pure_eq_ok]
      congr 1
      symm
      rw [decide_eq_true_eq]
      omega

theorem toNat_and_stamp (d : UInt32) (small : bits.toNat < 32) :
    (d &&& ((1 : UInt32) <<< bits - 1)).toNat = d.toNat % 2 ^ bits.toNat := by
  have power : 2 ^ bits.toNat < 2 ^ 32 := Nat.pow_lt_pow_right (by norm_num) small
  have one : ((1 : UInt32) <<< bits).toNat = 2 ^ bits.toNat := by
    rw [UInt32.toNat_shiftLeft, Nat.mod_eq_of_lt small, Nat.shiftLeft_eq]
    simp only [UInt32.reduceToNat, Nat.one_mul]
    exact Nat.mod_eq_of_lt power
  have positive : 0 < 2 ^ bits.toNat := Nat.pow_pos (by norm_num)
  have stamp : ((1 : UInt32) <<< bits - 1).toNat = 2 ^ bits.toNat - 1 := by
    rw [UInt32.toNat_sub, one]
    simp only [UInt32.reduceToNat]
    omega
  rw [UInt32.toNat_and, stamp, Nat.and_two_pow_sub_one_eq_mod]

/-- `roundDown` says whether the shift loses a one. -/
theorem losesBits_spec (small : bits.toNat < 32) (inside : digitMove < x.length) :
    losesBits x digitMove bits =
      .ok (decide (magnitude x.digits % ((2 ^ 32) ^ digitMove * 2 ^ bits.toNat) ≠ 0)) := by
  obtain ⟨d, read⟩ := exists_digit (show digitMove < x.digits.length from inside)
  have below := magnitude_take_lt x.digits digitMove
  have remainder : magnitude x.digits % ((2 ^ 32) ^ digitMove * 2 ^ bits.toNat) =
      magnitude (x.digits.take digitMove) + (2 ^ 32) ^ digitMove * (d.toNat % 2 ^ bits.toNat) := by
    have digit := words.value_div_mod x.digits digitMove
    rw [words.weightAt_eq read] at digit
    have low := words.value_mod_pow x.digits digitMove
    rw [Nat.mod_mul]
    change magnitude x.digits % _ = magnitude (x.digits.take digitMove) at low
    change magnitude x.digits / (2 ^ 32) ^ digitMove % 2 ^ 32 = d.toNat at digit
    rw [words_base] at low
    rw [low, ← digit, Nat.mod_mod_of_dvd]
    exact pow_dvd_pow 2 (Nat.le_of_lt small)
  simp only [losesBits, getDigit_eq read, ok_bind]
  by_cases masked : d &&& ((1 : UInt32) <<< bits - 1) = 0
  · have zero : d.toNat % 2 ^ bits.toNat = 0 := by
      rw [← toNat_and_stamp d small, masked]
      rfl
    rw [if_neg (by simpa using masked), anyNonzero_spec x.digits digitMove 0 (by rw [length] at inside; omega),
      remainder, zero, Nat.mul_zero, Nat.add_zero, List.drop_zero]
  · have positive : 0 < d.toNat % 2 ^ bits.toNat := by
      rw [← toNat_and_stamp d small]
      exact Nat.pos_of_ne_zero fun eq => masked (UInt32.toNat_inj.mp eq)
    have : 0 < (2 ^ 32) ^ digitMove * (d.toNat % 2 ^ bits.toNat) :=
      Nat.mul_pos (Nat.pow_pos (by norm_num)) positive
    rw [if_pos masked, pure_eq_ok, remainder]
    congr 1
    symm
    rw [decide_eq_true_eq]
    omega

/-! ## `RightShiftHelper` -/

/-- Rounding towards minus infinity, for a negative number. -/
theorem neg_ediv_natCast (m : Nat) {d : Nat} (positive : 0 < d) :
    -(m : Int) / d = if m % d = 0 then -((m / d : Nat) : Int) else Int.negSucc (m / d) := by
  have divides : (d : Int) ∣ m ↔ m % d = 0 := by
    rw [Int.natCast_dvd_natCast, Nat.dvd_iff_mod_eq_zero]
  rw [Int.neg_ediv, Int.natCast_ediv, Int.sign_natCast_of_ne_zero (by omega)]
  by_cases exact : m % d = 0
  · rw [if_pos (divides.mpr exact), if_pos exact]
    omega
  · rw [if_neg (fun h => exact (divides.mp h)), if_neg exact, Int.negSucc_eq]
    push_cast
    omega

theorem pow_maxSize : (2 ^ 32) ^ maxSize = 2 ^ maxBits := by
  rw [← pow_mul, show 32 * maxSize = maxBits from rfl]

theorem magnitude_lt_two_pow (cx : x.Canonical) : magnitude x.digits < 2 ^ maxBits := by
  calc magnitude x.digits < (2 ^ 32) ^ x.digits.length := magnitude_lt _
    _ ≤ (2 ^ 32) ^ maxSize := Nat.pow_le_pow_right (by norm_num) cx.size
    _ = 2 ^ maxBits := pow_maxSize

/-- A shift by more bits than the number has leaves zero or minus one. -/
theorem returnIfRightShiftOverMax_spec (cx : x.Canonical) {m : Nat}
    (beyond : magnitude x.digits < 2 ^ m) :
    Returns (returnIfRightShiftOverMax x.sign) (x.toInt / 2 ^ m) := by
  have power : (2 : Int) ^ m = ((2 ^ m : Nat) : Int) := by push_cast; rfl
  unfold returnIfRightShiftOverMax
  rcases sign : x.sign with _ | _
  · refine ⟨_, int32ToBigInt_zero, canonical_zero, ?_⟩
    rw [toInt_of_not_sign sign, power, ← Int.natCast_ediv, Nat.div_eq_of_lt beyond]
    rfl
  · refine ⟨_, int32ToBigInt_neg_one, canonical_single (by decide), ?_⟩
    have positive := cx.magnitude_pos (cx.digits_ne_of_sign sign)
    rw [toInt_of_sign sign, power, neg_ediv_natCast _ (by omega), Nat.mod_eq_of_lt beyond,
      Nat.div_eq_of_lt beyond, if_neg (by omega)]
    rfl

theorem rightShiftLength_spec (cx : x.Canonical) (small : bits.toNat < 32)
    (inside : digitMove < x.length) :
    ∃ need, rightShiftLength x digitMove bits = .ok (need,
        x.sign && decide (magnitude x.digits % ((2 ^ 32) ^ digitMove * 2 ^ bits.toNat) ≠ 0)) ∧
      x.length - digitMove ≤ need ∧ need ≤ maxSize := by
  have size := cx.size
  unfold rightShiftLength
  rcases x.sign with _ | _
  · exact ⟨x.length - digitMove, rfl, Nat.le_refl _, by omega⟩
  rw [if_pos rfl, judgeRoundDown, losesBits_spec small inside, ok_bind, Bool.true_and]
  by_cases longer : decide (magnitude x.digits % ((2 ^ 32) ^ digitMove * 2 ^ bits.toNat) ≠ 0) = true ∧
      bits = 0
  · -- the shift loses a one but no bits of a digit, so it loses a digit
    have moved : 0 < digitMove := by
      apply Nat.pos_of_ne_zero
      rintro rfl
      have lost := longer.1
      rw [longer.2, decide_eq_true_eq] at lost
      simp [Nat.mod_one] at lost
    obtain ⟨highBits, read⟩ := exists_digit (show x.length - 1 < x.digits.length by
      rw [length] at inside ⊢
      omega)
    rw [if_pos longer, getDigit_eq read, ok_bind, pure_eq_ok]
    refine ⟨_, rfl, ?_, ?_⟩ <;> split <;> omega
  · rw [if_neg longer, pure_eq_ok]
    exact ⟨x.length - digitMove, rfl, Nat.le_refl _, by omega⟩

/-- The quotient, negated and rounded, is no larger than the number. -/
theorem div_two_pow_succ_le {m k : Nat} (lost : m % 2 ^ k ≠ 0) : m / 2 ^ k + 1 ≤ m := by
  have positive : 0 < k := by
    apply Nat.pos_of_ne_zero
    rintro rfl
    simp [Nat.mod_one] at lost
  have nonzero : m ≠ 0 := by
    rintro rfl
    simp at lost
  have two : 2 ≤ 2 ^ k := Nat.le_self_pow (by omega) 2
  have half : m / 2 ^ k ≤ m / 2 := Nat.div_le_div_left two (by norm_num)
  omega

/-- The last steps of `RightShiftHelper`, on the digits of the quotient. -/
theorem rightShift_finish {r : BigInt} {k : Nat} (cx : x.Canonical) (canonical : r.Canonical)
    (unsigned : r.sign = false) (value : magnitude r.digits = magnitude x.digits / 2 ^ k) :
    Returns (if !x.sign then .ok r
      else if (x.sign && decide (magnitude x.digits % 2 ^ k ≠ 0)) = true then
        bitwiseAddOne { r with sign := true }
      else .ok { r with sign := true }) (x.toInt / 2 ^ k) := by
  have power : (2 : Int) ^ k = ((2 ^ k : Nat) : Int) := by push_cast; rfl
  rcases sign : x.sign with _ | _
  · refine ⟨r, rfl, canonical, ?_⟩
    rw [toInt_of_not_sign sign, toInt_of_not_sign unsigned, power, ← Int.natCast_ediv, value]
  rw [if_neg (by simp), Bool.true_and, toInt_of_sign sign, power,
    neg_ediv_natCast _ (Nat.pow_pos (by norm_num))]
  by_cases lost : magnitude x.digits % 2 ^ k ≠ 0
  · rw [if_pos (decide_eq_true lost), if_neg lost, ← value]
    rcases bitwiseAddOne_cases (x := { r with sign := true }) canonical.positive canonical.size with
      ⟨full, -⟩ | returns
    · exfalso
      have below := magnitude_lt x.digits
      have bound : (2 ^ 32) ^ x.digits.length ≤ (2 ^ 32) ^ maxSize :=
        Nat.pow_le_pow_right (by norm_num) cx.size
      have := div_two_pow_succ_le lost
      simp only [value] at full
      omega
    · exact returns
  · rw [if_neg (by simpa using lost), if_pos (not_not.mp lost), ← value]
    refine ⟨_, rfl, canonical.set_sign fun zero => ?_, toInt_of_sign rfl⟩
    exfalso
    -- nothing is lost, so a zero quotient would come from zero
    have positive := cx.magnitude_pos (cx.digits_ne_of_sign sign)
    have none := canonical.magnitude_eq_zero_iff.mpr zero
    have split := Nat.div_add_mod (magnitude x.digits) (2 ^ k)
    rw [← value, none, Nat.mul_zero, not_not.mp lost] at split
    omega

theorem Canonical.magnitude_of_length_le {d : UInt32} (canonical : y.Canonical)
    (short : y.length ≤ 1) (read : y.digits[0]? = some d) : magnitude y.digits = d.toNat := by
  obtain ⟨e, eq⟩ := List.length_eq_one_iff.mp (Nat.le_antisymm short canonical.positive)
  rw [eq] at read ⊢
  rw [magnitude_singleton, Option.some.inj read]

theorem Canonical.two_pow_le_magnitude (canonical : y.Canonical) (long : 1 < y.length) :
    2 ^ 32 ≤ magnitude y.digits := by
  have notZero : y.digits ≠ [0] := fun eq => by
    rw [length, eq] at long
    exact absurd long (by decide)
  calc 2 ^ 32 = (2 ^ 32) ^ 1 := (pow_one _).symm
    _ ≤ (2 ^ 32) ^ (y.length - 1) := Nat.pow_le_pow_right (by norm_num) (by omega)
    _ ≤ magnitude y.digits := canonical.pow_le_magnitude notZero

/-- `RightShiftHelper` rounds towards minus infinity, for shift counts of any length. -/
theorem rightShiftHelper_spec (cx : x.Canonical) (cy : y.Canonical) :
    Returns (rightShiftHelper x y) (x.toInt / 2 ^ magnitude y.digits) := by
  obtain ⟨d, read⟩ := exists_digit (show 0 < y.digits.length from cy.positive)
  have sizeX := magnitude_lt_two_pow cx
  unfold rightShiftHelper
  rw [getDigit_eq read, ok_bind]
  by_cases beyond : y.length > 1 ∨ d.toNat > maxBits ∨ x.length ≤ d.toNat / dateBits
  · simp only [beyond, if_true]
    apply returnIfRightShiftOverMax_spec cx
    rcases Nat.lt_or_ge 1 y.length with long | short
    · have large := cy.two_pow_le_magnitude long
      have : maxBits ≤ magnitude y.digits := by
        rw [show maxBits = 2 ^ 20 from rfl]
        omega
      exact Nat.lt_of_lt_of_le sizeX (Nat.pow_le_pow_right (by norm_num) this)
    · rw [cy.magnitude_of_length_le short read]
      rcases beyond with long | large | covered
      · omega
      · exact Nat.lt_of_lt_of_le sizeX (Nat.pow_le_pow_right (by norm_num) (by omega))
      · calc magnitude x.digits < (2 ^ 32) ^ x.digits.length := magnitude_lt _
          _ ≤ (2 ^ 32) ^ (d.toNat / 32) := Nat.pow_le_pow_right (by norm_num) covered
          _ ≤ 2 ^ d.toNat := by
              rw [← pow_mul]
              exact Nat.pow_le_pow_right (by norm_num) (Nat.mul_div_le _ _)
  · have single := cy.magnitude_of_length_le
      (Nat.le_of_not_lt fun long => beyond (.inl long)) read
    have notOver : ¬(y.length > 1 ∨ d.toNat > maxBits ∨ x.length ≤ d.toNat / 32) := beyond
    have inside : d.toNat / 32 < x.length :=
      Nat.lt_of_not_le fun covered => beyond (.inr (.inr covered))
    have bits : (UInt32.ofNat (d.toNat % dateBits)).toNat = d.toNat % 32 := by
      rw [UInt32.toNat_ofNat', dateBits]
      omega
    have small : (UInt32.ofNat (d.toNat % dateBits)).toNat < 32 := by
      rw [bits]
      omega
    obtain ⟨need, ranNeed, room, size⟩ := rightShiftLength_spec cx small inside
    obtain ⟨out, ran, shifted⟩ := rightShift_spec
      (reads_const x.digits (List.replicate need 0) (d.toNat / 32)) small inside
      (by rw [List.length_replicate]; exact room)
    have len := shifted.length
    rw [List.length_replicate] at len
    obtain ⟨r, ranR, canonical, unsigned, value⟩ := (rightTruncate_unsigned
      (show 0 < out.length by omega) (show out.length ≤ maxSize by omega)).natural
    rw [shifted.magnitude_eq, bits, ← two_pow_split] at value
    rw [bits, ← two_pow_split] at ranNeed
    simp only [show d.toNat / dateBits = d.toNat / 32 from rfl, if_neg notOver, ranNeed, ok_bind,
      createBigint_of_le size, ran, ranR, pure_eq_ok, single]
    exact rightShift_finish cx canonical unsigned value

/-! ## `LeftShift` and `SignedRightShift` -/

/-- The call returns the canonical BigInt of `x * 2 ^ |y|` or throws a RangeError, and it throws when
    that number needs more than `MAXSIZE` digits. -/
def ShiftsLeft (result : Except BigIntFault BigInt) (x y : BigInt) : Prop :=
  ReturnsOr sizeExceeded result (x.toInt * 2 ^ y.toInt.natAbs) ∧
    ((2 ^ 32) ^ maxSize ≤ x.toInt.natAbs * 2 ^ y.toInt.natAbs → result = .error sizeExceeded)

/-- What the shifts of `x` by `y` are to do. -/
def ShiftsExactly (x y : BigInt) : Prop :=
  (0 ≤ y.toInt → ShiftsLeft (leftShift x y) x y) ∧
  (y.toInt ≤ 0 → ShiftsLeft (signedRightShift x y) x y) ∧
  (0 ≤ y.toInt → Returns (signedRightShift x y) (x.toInt / 2 ^ y.toInt.natAbs)) ∧
  (y.toInt ≤ 0 → Returns (leftShift x y) (x.toInt / 2 ^ y.toInt.natAbs))

/-- The shift count has one digit, or its lowest digit alone asks for too many digits. -/
def CountFits (x y : BigInt) : Prop :=
  x.toInt = 0 ∨ y.toInt.natAbs < 2 ^ 32 ∨
    maxSize < shiftedLength x (UInt32.ofNat (y.toInt.natAbs % 2 ^ 32))

theorem lowest_digit {d : UInt32} (read : y.digits[0]? = some d) :
    UInt32.ofNat (y.toInt.natAbs % 2 ^ 32) = d := by
  have digit := words.value_div_mod y.digits 0
  rw [words.weightAt_eq read, pow_zero, Nat.div_one] at digit
  change magnitude y.digits % 2 ^ 32 = d.toNat at digit
  rw [toInt_natAbs, digit, UInt32.ofNat_toNat]

theorem Canonical.natAbs_lt (canonical : x.Canonical) : x.toInt.natAbs < (2 ^ 32) ^ maxSize := by
  rw [toInt_natAbs]
  exact Nat.lt_of_lt_of_le (magnitude_lt _) (Nat.pow_le_pow_right (by norm_num) canonical.size)

theorem shiftsLeft_of_returns {result : Except BigIntFault BigInt}
    (returns : Returns result (x.toInt * 2 ^ y.toInt.natAbs)) : ShiftsLeft result x y := by
  refine ⟨.inr returns, fun large => ?_⟩
  obtain ⟨r, -, canonical, value⟩ := returns
  have below := canonical.natAbs_lt
  rw [value, Int.natAbs_mul, Int.natAbs_pow] at below
  exact absurd large (Nat.not_le_of_lt below)

theorem leftShiftHelper_zero (zero : x.isZero = true) : leftShiftHelper x y = .ok x := if_pos zero

/-- The shift to the left does its work exactly when the count fits. -/
theorem leftShiftHelper_shiftsLeft_iff (cx : x.Canonical) (cy : y.Canonical) :
    ShiftsLeft (leftShiftHelper x y) x y ↔ CountFits x y := by
  obtain ⟨d, read⟩ := exists_digit (show 0 < y.digits.length from cy.positive)
  have low := lowest_digit read
  by_cases zero : x.digits = [0]
  · have value := cx.toInt_eq_zero_iff.mpr zero
    refine ⟨fun _ => .inl value, fun _ => shiftsLeft_of_returns ⟨x, ?_, cx, ?_⟩⟩
    · exact leftShiftHelper_zero (isZero_iff.mpr zero)
    · rw [value, Int.zero_mul]
  have nonzero : x.toInt ≠ 0 := fun eq => zero (cx.toInt_eq_zero_iff.mp eq)
  rcases leftShiftHelper_spec cx zero read with ⟨large, failed⟩ | ⟨small, returns⟩
  · refine ⟨fun _ => .inr (.inr (by rw [low]; exact large)), fun _ => ?_⟩
    exact ⟨.inl failed, fun _ => failed⟩
  constructor
  · intro shifts
    by_contra notFits
    have long : 2 ^ 32 ≤ y.toInt.natAbs := by
      by_contra short
      exact notFits (.inr (.inl (Nat.lt_of_not_le short)))
    -- the product is too long, but the call returns
    have tooLong : (2 ^ 32) ^ maxSize ≤ x.toInt.natAbs * 2 ^ y.toInt.natAbs := by
      calc (2 ^ 32) ^ maxSize = 2 ^ maxBits := pow_maxSize
        _ ≤ 2 ^ y.toInt.natAbs :=
          Nat.pow_le_pow_right (by norm_num) (Nat.le_trans (by decide) long)
        _ ≤ x.toInt.natAbs * 2 ^ y.toInt.natAbs :=
          Nat.le_mul_of_pos_left _ (Int.natAbs_pos.mpr nonzero)
    obtain ⟨r, ran, -⟩ := returns
    rw [shifts.2 tooLong] at ran
    cases ran
  · intro fits
    rcases fits with value | short | large
    · exact absurd value nonzero
    · rw [Nat.mod_eq_of_lt short] at low
      have count : y.toInt.natAbs = d.toNat := by
        rw [← low, UInt32.toNat_ofNat', Nat.mod_eq_of_lt short]
      rw [← count] at returns
      exact shiftsLeft_of_returns returns
    · rw [low] at large
      omega

theorem signedRightShift_of_zero (zero : x.isZero = true ∨ y.isZero = true) :
    signedRightShift x y = .ok x := if_pos zero

/-- The shifts do what they are to do exactly when the count fits: `LeftShiftHelper` uses the lowest
    digit of a longer count, where `RightShiftHelper` checks the length. -/
theorem shiftsExactly_iff (x y : BigInt) (cx : x.Canonical) (cy : y.Canonical) :
    ShiftsExactly x y ↔ CountFits x y := by
  have helper := leftShiftHelper_shiftsLeft_iff cx cy
  have right := rightShiftHelper_spec cx cy
  rw [← toInt_natAbs] at right
  unfold ShiftsExactly
  rcases sign : y.sign with _ | _
  · have nonneg : 0 ≤ y.toInt := by
      rw [toInt_of_not_sign sign]
      exact Int.natCast_nonneg _
    have left : leftShift x y = leftShiftHelper x y := by simp [leftShift, sign]
    rw [left]
    refine ⟨fun shifts => helper.mp (shifts.1 nonneg), fun fits => ⟨fun _ => helper.mpr fits, ?_, ?_, ?_⟩⟩
    · intro nonpos
      have zero : y.toInt = 0 := by omega
      have isZero := isZero_iff.mpr (cy.toInt_eq_zero_iff.mp zero)
      apply shiftsLeft_of_returns
      exact ⟨x, signedRightShift_of_zero (.inr isZero), cx, by simp [zero]⟩
    · intro _
      by_cases trivial : x.isZero = true ∨ y.isZero = true
      · refine ⟨x, signedRightShift_of_zero trivial, cx, ?_⟩
        rcases trivial with zero | zero
        · rw [cx.toInt_eq_zero_iff.mpr (isZero_iff.mp zero), Int.zero_ediv]
        · rw [cy.toInt_eq_zero_iff.mpr (isZero_iff.mp zero)]
          simp
      · rw [signedRightShift, if_neg trivial, if_neg (by simp [sign])]
        exact right
    · intro nonpos
      have zero : y.toInt = 0 := by omega
      -- a count of zero leaves the number as it is
      rcases (helper.mpr fits).1 with failed | returns
      · exfalso
        have digits := cy.toInt_eq_zero_iff.mp zero
        by_cases zeroX : x.digits = [0]
        · rw [leftShiftHelper_zero (isZero_iff.mpr zeroX)] at failed
          cases failed
        · rcases leftShiftHelper_spec cx zeroX (show y.digits[0]? = some 0 by rw [digits]; rfl) with
            ⟨large, -⟩ | ⟨-, r, ran, -⟩
          · have : shiftedLength x 0 = x.length := by simp [shiftedLength, dateBits]
            have := cx.size
            omega
          · rw [failed] at ran
            cases ran
      · simpa [zero] using returns
  · have negative : y.toInt < 0 := cy.sign_iff.mp sign
    have left : leftShift x y = rightShiftHelper x y := by simp [leftShift, sign]
    have other : signedRightShift x y = leftShiftHelper x y := by
      have notZero : y.isZero = false := isZero_eq_false_iff.mpr (cy.digits_ne_of_sign sign)
      by_cases zero : x.isZero = true
      · rw [leftShiftHelper_zero zero, signedRightShift_of_zero (.inl zero)]
      · rw [signedRightShift, if_neg (by simp [zero, notZero]), if_pos sign]
    rw [left, other]
    refine ⟨fun shifts => helper.mp (shifts.2.1 (Int.le_of_lt negative)), fun fits => ?_⟩
    exact ⟨fun nonneg => by omega, fun _ => helper.mpr fits, fun nonneg => by omega, fun _ => right⟩

theorem shiftsExactly_iff_small_count :
    let x : BigInt := ⟨true, [5, 1]⟩
    let y : BigInt := ⟨false, [33]⟩
    x.Canonical ∧ y.Canonical ∧ (ShiftsExactly x y ↔ CountFits x y) := by
  intro x y
  have cx : x.Canonical := by decide
  have cy : y.Canonical := by decide
  exact ⟨cx, cy, shiftsExactly_iff x y cx cy⟩

/-- `1n << 4294967296n` is `1n`. -/
theorem leftShift_ignores_high_digits :
    let x : BigInt := ⟨false, [1]⟩
    let y : BigInt := ⟨false, [0, 1]⟩
    x.Canonical ∧ y.Canonical ∧ leftShift x y = .ok x ∧ ¬ShiftsExactly x y := by
  intro x y
  have cx : x.Canonical := by decide
  have cy : y.Canonical := by decide
  refine ⟨cx, cy, by decide +kernel, ?_⟩
  intro shifts
  have fits := (leftShiftHelper_shiftsLeft_iff cx cy).mp (shifts.1 (by decide +kernel))
  rcases fits with zero | short | large
  · exact absurd zero (by decide +kernel)
  · exact absurd short (by decide +kernel)
  · exact absurd large (by decide +kernel)

end BigInt

end ArkRuntime
