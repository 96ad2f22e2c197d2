import ArkRuntime.BigInt.Arithmetic
import Mathlib.Data.Int.Bitwise

/-!
# The bitwise operations

A negative number `-m` has the bits of `m - 1`, negated (`Int.negSucc (m - 1)`), so each sign
combination is one equation of `Int.land`, `Int.lor` and `Int.xor` on the magnitudes. `BitwiseOp`
and its variants for a negated operand work digit by digit (`bitwiseOp_spec`, `maskDigits_spec`);
`BitwiseSubOne` and `BitwiseAddOne` are the carry loops of the addition, started with a carry.
-/

namespace ArkRuntime

namespace BigInt

variable {x y : BigInt} {xs ys digits fresh : List UInt32} {i k n : Nat}
  {op : UInt32 → UInt32 → UInt32} {f : Nat → Nat → Nat}

/-! ## Loops that write digit by digit -/

/-- The digits below `i` are combined from those of `xs` and `ys`, the others are still `fresh`. -/
structure Combined (op : UInt32 → UInt32 → UInt32) (xs ys fresh : List UInt32) (i : Nat)
    (out : List UInt32) : Prop where
  length : out.length = fresh.length
  done : ∀ k < i, ∃ a b, xs[k]? = some a ∧ ys[k]? = some b ∧ out[k]? = some (op a b)
  rest : ∀ k, i ≤ k → out[k]? = fresh[k]?

theorem digitRound_spec (insideX : i < xs.length) (insideY : i < ys.length)
    (inside : i < fresh.length) (before : Combined op xs ys fresh i digits) :
    ∃ out, digitRound op xs ys i digits = .ok out ∧ Combined op xs ys fresh (i + 1) out := by
  obtain ⟨len, done, rest⟩ := before
  obtain ⟨a, readX⟩ := exists_digit insideX
  obtain ⟨b, readY⟩ := exists_digit insideY
  refine ⟨digits.set i (op a b), ?_, by simpa using len, ?_, ?_⟩
  · simp only [digitRound, getDigit_eq readX, getDigit_eq readY, ok_bind,
      setDigit_of_lt _ (show i < digits.length by omega)]
  · intro k less
    rcases Nat.lt_succ_iff_lt_or_eq.mp less with less | rfl
    · rw [List.getElem?_set_ne (by omega)]
      exact done k less
    · exact ⟨a, b, readX, readY, List.getElem?_set_self (by omega)⟩
  · intro k above
    rw [List.getElem?_set_ne (by omega)]
    exact rest k (by omega)

theorem digitLoop_spec (op : UInt32 → UInt32 → UInt32) (xs ys fresh : List UInt32) (n : Nat)
    (insideX : n ≤ xs.length) (insideY : n ≤ ys.length) (room : n ≤ fresh.length) :
    ∃ out, forRange (digitRound op xs ys) 0 n fresh = .ok out ∧ Combined op xs ys fresh n out := by
  have start : Combined op xs ys fresh 0 fresh := ⟨rfl, fun k below => by omega, fun k _ => rfl⟩
  obtain ⟨out, ran, after⟩ := forRange_spec (I := Combined op xs ys fresh) 0 n start
    fun i digits _ below inv => digitRound_spec (by omega) (by omega) (by omega) inv
  rw [Nat.zero_add] at after
  exact ⟨out, ran, after⟩

/-- The digits from `start` up to `i` are copied from `xs`, the others are those of `low`. -/
structure Copied (xs low : List UInt32) (start i : Nat) (out : List UInt32) : Prop where
  length : out.length = low.length
  rest : ∀ k, k < start ∨ i ≤ k → out[k]? = low[k]?
  done : ∀ k, start ≤ k → k < i → out[k]? = xs[k]?

variable {m : Nat} {low : List UInt32} {result : Except BigIntFault BigInt}

theorem copyRound_spec {start : Nat} (insideX : i < xs.length) (inside : i < low.length) (above : start ≤ i)
    (before : Copied xs low start i digits) :
    ∃ out, copyRound xs i digits = .ok out ∧ Copied xs low start (i + 1) out := by
  obtain ⟨len, rest, done⟩ := before
  obtain ⟨a, readX⟩ := exists_digit insideX
  refine ⟨digits.set i a, ?_, by simpa using len, ?_, ?_⟩
  · simp only [copyRound, getDigit_eq readX, ok_bind,
      setDigit_of_lt _ (show i < digits.length by omega)]
  · intro k outside
    rw [List.getElem?_set_ne (by omega)]
    exact rest k (by omega)
  · intro k above less
    rcases Nat.lt_succ_iff_lt_or_eq.mp less with less | rfl
    · rw [List.getElem?_set_ne (by omega)]
      exact done k above less
    · rw [List.getElem?_set_self (by omega), readX]

theorem copyLoop_spec (xs low : List UInt32) (start : Nat) (inside : start ≤ xs.length)
    (room : xs.length ≤ low.length) :
    ∃ out, forRange (copyRound xs) start (xs.length - start) low = .ok out ∧
      Copied xs low start xs.length out := by
  have begin : Copied xs low start start low :=
    ⟨rfl, fun k _ => rfl, fun k above below => by omega⟩
  obtain ⟨out, ran, after⟩ := forRange_spec (I := Copied xs low start) start (xs.length - start)
    begin fun i digits above below inv => copyRound_spec (by omega) (by omega) above inv
  rw [show start + (xs.length - start) = xs.length by omega] at after
  exact ⟨out, ran, after⟩

theorem weightAt_replicate_zero (n k : Nat) : words.weightAt (List.replicate n 0) k = 0 := by
  unfold DigitSystem.weightAt
  rw [List.getElem?_replicate]
  split <;> rfl

theorem weightAt_congr (same : xs[k]? = ys[k]?) : words.weightAt xs k = words.weightAt ys k := by
  rw [DigitSystem.weightAt, same, DigitSystem.weightAt]

/-- The digits of two operands combined by `f`. -/
theorem magnitude_bitwise {g : Bool → Bool → Bool}
    (bits : ∀ a b i, (f a b).testBit i = g (a.testBit i) (b.testBit i))
    (digitwise : ∀ k, words.weightAt digits k = f (words.weightAt xs k) (words.weightAt ys k)) :
    magnitude digits = f (magnitude xs) (magnitude ys) :=
  words.value_bitwise (show words.base = 2 ^ 32 from rfl) bits digitwise

/-! ## `BitwiseOp` -/

/-- The operation on numbers that an `Operate` stands for. -/
def Operate.onNat : Operate → Nat → Nat → Nat
  | .and => (· &&& ·)
  | .or => (· ||| ·)
  | .xor => (· ^^^ ·)

/-- The operation on bits. -/
def Operate.onBool : Operate → Bool → Bool → Bool
  | .and => Bool.and
  | .or => Bool.or
  | .xor => Bool.xor

theorem Operate.testBit_onNat (o : Operate) (a b i : Nat) :
    (o.onNat a b).testBit i = o.onBool (a.testBit i) (b.testBit i) := by
  cases o
  · exact Nat.testBit_and a b i
  · exact Nat.testBit_or a b i
  · exact Nat.testBit_xor a b i

theorem Operate.toNat_apply (o : Operate) (a b : UInt32) :
    (o.apply a b).toNat = o.onNat a.toNat b.toNat := by
  cases o
  · exact UInt32.toNat_and a b
  · exact UInt32.toNat_or a b
  · exact UInt32.toNat_xor a b

/-- A loop that copies the digits of `xs` from `n` on, where `f` keeps them. -/
theorem copyLoop_weightAt (n : Nat) (longer : n ≤ xs.length) (len : low.length = xs.length)
    (keeps : ∀ k, n ≤ k → f (words.weightAt xs k) (words.weightAt ys k) = words.weightAt xs k)
    (below : ∀ k < n, words.weightAt low k = f (words.weightAt xs k) (words.weightAt ys k)) :
    ∃ out, forRange (copyRound xs) n (xs.length - n) low = .ok out ∧ out.length = low.length ∧
      ∀ k, words.weightAt out k = f (words.weightAt xs k) (words.weightAt ys k) := by
  obtain ⟨out, ran, copied⟩ := copyLoop_spec xs low n longer (Nat.le_of_eq len.symm)
  refine ⟨out, ran, copied.length, ?_⟩
  intro k
  rcases Nat.lt_or_ge k n with less | above
  · rw [weightAt_congr (copied.rest k (.inl less)), below k less]
  · rw [keeps k above]
    rcases Nat.lt_or_ge k xs.length with inside | outside
    · exact weightAt_congr (copied.done k above inside)
    · rw [words.weightAt_of_length_le outside, words.weightAt_of_length_le]
      have := copied.length
      omega

/-- Above the shorter operand, OR and XOR copy the longer one and AND leaves zeros. -/
theorem bitwiseRest_spec (o : Operate) (xs ys low : List UInt32)
    (len : low.length = max xs.length ys.length)
    (below : ∀ k < min xs.length ys.length,
      words.weightAt low k = o.onNat (words.weightAt xs k) (words.weightAt ys k))
    (above : ∀ k, min xs.length ys.length ≤ k → words.weightAt low k = 0) :
    ∃ out, bitwiseRest o xs ys low = .ok out ∧ out.length = low.length ∧
      ∀ k, words.weightAt out k = o.onNat (words.weightAt xs k) (words.weightAt ys k) := by
  have even : xs.length = ys.length →
      ∀ k, words.weightAt low k = o.onNat (words.weightAt xs k) (words.weightAt ys k) := by
    intro same k
    rcases Nat.lt_or_ge k (min xs.length ys.length) with less | outside
    · exact below k less
    · rw [above k outside, words.weightAt_of_length_le (show xs.length ≤ k by omega),
        words.weightAt_of_length_le (show ys.length ≤ k by omega)]
      cases o <;> rfl
  unfold bitwiseRest
  by_cases copies : o = .or ∨ o = .xor
  · have keeps : ∀ a, o.onNat a 0 = a := by
      intro a
      rcases copies with rfl | rfl
      · exact Nat.or_zero a
      · exact Nat.xor_zero a
    have swaps : ∀ a b, o.onNat a b = o.onNat b a := by
      intro a b
      rcases copies with rfl | rfl
      · exact Nat.or_comm a b
      · exact Nat.xor_comm a b
    rw [if_pos copies]
    rcases Nat.lt_trichotomy xs.length ys.length with shorter | same | longer
    · rw [if_neg (by omega), if_pos shorter]
      have swapped := copyLoop_weightAt (f := o.onNat) xs.length (Nat.le_of_lt shorter)
        (show low.length = ys.length by omega)
        (fun k outside => by rw [words.weightAt_of_length_le outside, keeps])
        (fun k less => by rw [below k (by omega), swaps])
      simp only [swaps (words.weightAt ys _)] at swapped
      exact swapped
    · rw [if_neg (by omega), if_neg (by omega)]
      exact ⟨low, rfl, rfl, even same⟩
    · rw [if_pos longer]
      exact copyLoop_weightAt ys.length (Nat.le_of_lt longer) (by omega)
        (fun k outside => by rw [words.weightAt_of_length_le outside, keeps])
        (fun k less => below k (by omega))
  · rw [if_neg copies]
    have isAnd : o = .and := by
      cases o <;> simp_all
    refine ⟨low, rfl, rfl, fun k => ?_⟩
    rcases Nat.lt_or_ge k (min xs.length ys.length) with less | outside
    · exact below k less
    · rw [above k outside, isAnd]
      rcases Nat.le_total xs.length ys.length with shorter | longer
      · rw [words.weightAt_of_length_le (show xs.length ≤ k by omega)]
        exact (Nat.zero_and _).symm
      · rw [words.weightAt_of_length_le (show ys.length ≤ k by omega)]
        exact (Nat.and_zero _).symm

theorem bitwiseOp_spec (o : Operate) (cx : x.Canonical) (cy : y.Canonical) :
    Returns (bitwiseOp o x y) (o.onNat (magnitude x.digits) (magnitude y.digits) : Nat) := by
  have size : max x.length y.length ≤ maxSize := Nat.max_le.mpr ⟨cx.size, cy.size⟩
  obtain ⟨low, ran, combined⟩ := digitLoop_spec o.apply x.digits y.digits
    (List.replicate (max x.length y.length) 0) (min x.length y.length) (Nat.min_le_left _ _)
    (Nat.min_le_right _ _) (by rw [List.length_replicate]; omega)
  have lowLength := combined.length
  rw [List.length_replicate] at lowLength
  obtain ⟨digits, ranRest, len, digitwise⟩ := bitwiseRest_spec o x.digits y.digits low lowLength
    (fun k less => by
      obtain ⟨a, b, readX, readY, read⟩ := combined.done k less
      rw [words.weightAt_eq readX, words.weightAt_eq readY, words.weightAt_eq read]
      exact o.toNat_apply a b)
    (fun k outside => by
      rw [weightAt_congr (combined.rest k outside), weightAt_replicate_zero])
  have := cx.positive
  rw [bitwiseOp, createBigint_of_le size, ok_bind, ran, ok_bind, ranRest, ok_bind,
    ← magnitude_bitwise o.testBit_onNat digitwise]
  exact rightTruncate_unsigned (by omega) (by omega)

/-! ## Digits masked by a negated operand -/

theorem toNat_and_not (a b : UInt32) : (a &&& ~~~b).toNat = Nat.ldiff a.toNat b.toNat := by
  apply Nat.eq_of_testBit_eq
  intro i
  rw [UInt32.toNat_and, Nat.testBit_and, Nat.testBit_ldiff]
  rcases Nat.lt_or_ge i 32 with inside | outside
  · rw [UInt32.toNat_not, Nat.sub_sub, Nat.add_comm 1, show UInt32.size = 2 ^ 32 from rfl,
      Nat.testBit_two_pow_sub_succ b.toNat_lt]
    simp [inside]
  · have small : a.toNat < 2 ^ i :=
      Nat.lt_of_lt_of_le a.toNat_lt (Nat.pow_le_pow_right (by norm_num) outside)
    rw [Nat.testBit_lt_two_pow small]
    rfl

theorem ldiff_zero (a : Nat) : Nat.ldiff a 0 = a := by
  apply Nat.eq_of_testBit_eq
  intro i
  simp [Nat.testBit_ldiff]

theorem zero_ldiff (b : Nat) : Nat.ldiff 0 b = 0 := by
  apply Nat.eq_of_testBit_eq
  intro i
  simp [Nat.testBit_ldiff]

/-- The loops of `OneIsNegativeAND` and `OneIsNegativeOR`: where both operands have a digit it is
    masked, above that the digits of `xs` are copied. -/
theorem maskLoop_spec (xs ys : List UInt32) (len : low.length = xs.length)
    (below : ∀ k < min xs.length ys.length,
      words.weightAt low k = Nat.ldiff (words.weightAt xs k) (words.weightAt ys k)) :
    ∃ out, forRange (copyRound xs) (min xs.length ys.length) (xs.length - min xs.length ys.length)
        low = .ok out ∧ out.length = xs.length ∧
      magnitude out = Nat.ldiff (magnitude xs) (magnitude ys) := by
  obtain ⟨out, ran, lenOut, digitwise⟩ := copyLoop_weightAt (min xs.length ys.length)
    (Nat.min_le_left _ _) len
    (fun k outside => by
      rcases Nat.le_total xs.length ys.length with shorter | longer
      · rw [words.weightAt_of_length_le (show xs.length ≤ k by omega), zero_ldiff]
      · rw [words.weightAt_of_length_le (show ys.length ≤ k by omega), ldiff_zero])
    below
  refine ⟨out, ran, by omega, ?_⟩
  exact magnitude_bitwise (g := fun a b => a && !b) Nat.testBit_ldiff digitwise

/-! ## `BitwiseSubOne` and `BitwiseAddOne` -/

theorem drop_replicate_zero (n i : Nat) : magnitude ((List.replicate n 0).drop i) = 0 := by
  rw [List.drop_replicate, magnitude_replicate]

/-- The loop of `BitwiseSubOne` and `BitwiseAddOne`, which starts with the carry 1. -/
theorem oneLoop_spec {helper : UInt32 → UInt32 → UInt32 → UInt32 × UInt32} {dir : Int}
    (is : CarryHelper helper dir) (xs : List UInt32) (room : xs.length ≤ n) :
    ∃ s, forRange (carryRound helper xs) 0 xs.length ⟨List.replicate n 0, 1⟩ = .ok s ∧
      Carries dir (List.replicate n 0) xs.length (magnitude xs) 1 s := by
  have start : Carries dir (List.replicate n 0) 0 (magnitude (xs.take 0)) 1
      ⟨List.replicate n 0, 1⟩ := ⟨rfl, rfl, Nat.le_refl 1, by simp⟩
  exact forRange_carryRound is (Nat.zero_le _) (by rw [List.length_replicate]; exact room) start

theorem bitwiseSubOne_spec (cx : x.Canonical) (nonzero : x.digits ≠ [0]) {maxLen : Nat}
    (room : x.length ≤ maxLen) (size : maxLen ≤ maxSize) :
    Returns (bitwiseSubOne x maxLen) (magnitude x.digits - 1 : Nat) := by
  obtain ⟨s, ran, carries⟩ := oneLoop_spec subHelper_carryHelper x.digits room
  have len := carries.length
  rw [List.length_replicate] at len
  have low := carries.take_eq_sub (cx.magnitude_pos nonzero)
  have total : magnitude s.digits = magnitude x.digits - 1 := by
    have split := words.value_split s.digits x.digits.length
    rw [carries.rest] at split
    change magnitude s.digits = magnitude (s.digits.take x.digits.length) +
      _ * magnitude ((List.replicate maxLen 0).drop x.digits.length) at split
    rwa [drop_replicate_zero, low, Nat.mul_zero, Nat.add_zero] at split
  have ran' : forRange (carryRound subHelper x.digits) 0 x.length ⟨List.replicate maxLen 0, 1⟩ =
    .ok s := ran
  have := cx.positive
  rw [bitwiseSubOne, createBigint_of_le size, ok_bind, ran', ok_bind, ← total]
  exact rightTruncate_unsigned (by omega) (by omega)

theorem needExpend_spec (digits : List UInt32) (n i : Nat) (inside : i + n = digits.length) :
    (needExpend digits i n = .ok true ∧ digits.drop i = List.replicate n 0xFFFFFFFF) ∨
      ∃ (k : Nat) (d : UInt32), needExpend digits i n = .ok false ∧ digits[k]? = some d ∧
        d ≠ 0xFFFFFFFF := by
  induction n generalizing i with
  | zero => exact .inl ⟨rfl, List.drop_eq_nil_of_le (by omega)⟩
  | succ n ih =>
    have here : i < digits.length := by omega
    have read : digits[i]? = some digits[i] := List.getElem?_eq_getElem here
    by_cases largest : digits[i] = 0xFFFFFFFF
    · have step : needExpend digits i (n + 1) = needExpend digits (i + 1) n := by
        simp [needExpend, getDigit_eq read, largest]
      rw [step, List.drop_eq_getElem_cons here, largest]
      rcases ih (i + 1) (by omega) with ⟨expend, all⟩ | smaller
      · exact .inl ⟨expend, by rw [all]; rfl⟩
      · exact .inr smaller
    · refine .inr ⟨i, digits[i], ?_, read, largest⟩
      simp [needExpend, getDigit_eq read, Ne.symm largest]

theorem magnitude_replicate_max (n : Nat) :
    magnitude (List.replicate n 0xFFFFFFFF) + 1 = (2 ^ 32) ^ n := by
  induction n with
  | zero => rfl
  | succ n ih =>
    rw [List.replicate_succ, magnitude_cons, pow_succ (2 ^ 32) n]
    simp only [UInt32.reduceToNat]
    omega

/-- A digit below the largest one leaves room for adding one. -/
theorem magnitude_succ_lt {d : UInt32} (read : digits[k]? = some d) (room : d ≠ 0xFFFFFFFF) :
    magnitude digits + 1 < (2 ^ 32) ^ digits.length := by
  have larger : (d + 1).toNat = d.toNat + 1 := by
    have bound := d.toNat_lt
    have notMax : d.toNat ≠ 2 ^ 32 - 1 := fun eq => room (UInt32.toNat_inj.mp eq)
    rw [UInt32.toNat_add]
    simp only [UInt32.reduceToNat]
    omega
  have replaced := magnitude_set (d + 1) read
  have bound := magnitude_lt (digits.set k (d + 1))
  rw [List.length_set] at bound
  rw [larger, Nat.mul_add, Nat.mul_one] at replaced
  have : 0 < (2 ^ 32) ^ k := Nat.pow_pos (by norm_num)
  omega

theorem negSucc_eq_signum (eq : magnitude digits = m + 1) :
    Int.negSucc m = signum true * magnitude digits := by
  rw [eq, Int.negSucc_eq, signum, if_pos rfl]
  push_cast
  ring

/-- `BitwiseAddOne` returns the negative number whose bits are those of the magnitude, negated. It
    throws when the magnitude is the largest one that a BigInt can have. -/
theorem bitwiseAddOne_cases (positive : 0 < x.length) (size : x.length ≤ maxSize) :
    (magnitude x.digits + 1 = (2 ^ 32) ^ maxSize ∧ bitwiseAddOne x = .error sizeExceeded) ∨
      Returns (bitwiseAddOne x) (Int.negSucc (magnitude x.digits)) := by
  unfold bitwiseAddOne
  rcases needExpend_spec x.digits x.length 0 (Nat.zero_add _) with
    ⟨expend, all⟩ | ⟨k, d, expend, read, room⟩
  · rw [expend, ok_bind, if_pos rfl]
    rcases createBigint_cases (x.length + 1) with ⟨large, failed⟩ | ⟨size, created⟩
    · have full : x.length = maxSize := by omega
      rw [List.drop_zero] at all
      refine .inl ⟨?_, by rw [failed]; rfl⟩
      rw [all, magnitude_replicate_max, full]
    right
    obtain ⟨s, ran, len, -, -, value⟩ :=
      oneLoop_spec addHelper_carryHelper x.digits (Nat.le_succ x.length)
    rw [List.length_replicate] at len
    have ran' : forRange (carryRound addHelper x.digits) 0 x.length
      ⟨List.replicate (x.length + 1) 0, 1⟩ = .ok s := ran
    have total : magnitude (s.digits.set x.length s.carry) = magnitude x.digits + 1 := by
      rw [magnitude_set_last s.carry len]
      rw [show x.digits.length = x.length from rfl] at value
      zify
      push_cast at value ⊢
      linarith
    rw [created, ok_bind, ran', ok_bind, expandDigits, if_pos rfl, setDigit_of_lt _ (by omega),
      ok_bind, negSucc_eq_signum total]
    exact rightTruncate_digits true (by rw [List.length_set]; omega)
      (by rw [List.length_set]; omega)
  · rw [expend, ok_bind, if_neg (by decide), createBigint_of_le size, ok_bind]
    right
    obtain ⟨s, ran, carries⟩ := oneLoop_spec addHelper_carryHelper x.digits (Nat.le_refl x.length)
    have len := carries.length
    rw [List.length_replicate] at len
    have ran' : forRange (carryRound addHelper x.digits) 0 x.length
      ⟨List.replicate x.length 0, 1⟩ = .ok s := ran
    have total := carries.take_eq_add (magnitude_succ_lt read room)
    rw [List.take_of_length_le (show s.digits.length ≤ x.digits.length from Nat.le_of_eq len)]
      at total
    rw [ran', ok_bind, expandDigits, if_neg (by decide), ok_bind, negSucc_eq_signum total]
    exact rightTruncate_digits true (by omega) (by omega)

theorem bitwiseAddOne_spec (cx : x.Canonical) :
    ReturnsOr sizeExceeded (bitwiseAddOne x) (Int.negSucc (magnitude x.digits)) := by
  rcases bitwiseAddOne_cases cx.positive cx.size with ⟨-, failed⟩ | returns
  · exact .inl failed
  · exact .inr returns

/-! ## The sign combinations -/

/-- A call that returns a natural number. -/
theorem Returns.natural (returns : Returns result m) :
    ∃ r, result = .ok r ∧ r.Canonical ∧ r.sign = false ∧ magnitude r.digits = m := by
  obtain ⟨r, ran, canonical, value⟩ := returns
  refine ⟨r, ran, canonical, ?_, ?_⟩
  · rw [← Bool.not_eq_true, canonical.sign_iff, value]
    omega
  · rw [← toInt_natAbs, value, Int.natAbs_natCast]

theorem Canonical.digits_ne_of_sign (canonical : x.Canonical) (negative : x.sign = true) :
    x.digits ≠ [0] := by
  intro eq
  rw [canonical.zero eq] at negative
  cases negative

theorem Canonical.toInt_negSucc (canonical : x.Canonical) (negative : x.sign = true) :
    x.toInt = Int.negSucc (magnitude x.digits - 1) := by
  have positive := canonical.magnitude_pos (canonical.digits_ne_of_sign negative)
  rw [toInt_of_sign negative, Int.negSucc_eq]
  omega

theorem set_sign_true (canonical : x.Canonical) (negative : x.toInt = Int.negSucc m) :
    ({ x with sign := true } : BigInt) = x := by
  have : x.sign = true := canonical.sign_iff.mpr (by rw [negative]; exact Int.negSucc_lt_zero m)
  cases x
  simp_all

theorem ReturnsOr.set_sign_true (returns : ReturnsOr sizeExceeded result (Int.negSucc m)) :
    ReturnsOr sizeExceeded (do
      let res ← result
      return { res with sign := true }) (Int.negSucc m) := by
  rcases returns with failed | ⟨r, ran, canonical, value⟩
  · exact .inl (by rw [failed]; rfl)
  · refine .inr ⟨r, ?_, canonical, value⟩
    rw [ran, ok_bind, pure_eq_ok, BigInt.set_sign_true canonical value]

theorem subOne_spec (cx : x.Canonical) (negative : x.sign = true) {maxLen : Nat}
    (room : x.length ≤ maxLen) (size : maxLen ≤ maxSize) :
    ∃ r, bitwiseSubOne x maxLen = .ok r ∧ r.Canonical ∧
      magnitude r.digits = magnitude x.digits - 1 := by
  obtain ⟨r, ran, canonical, -, value⟩ :=
    (bitwiseSubOne_spec cx (cx.digits_ne_of_sign negative) room size).natural
  exact ⟨r, ran, canonical, value⟩

theorem if_gt_eq_min (a b : Nat) : (if a > b then b else a) = min a b := by
  split <;> omega

theorem if_lt_eq_max (a b : Nat) : (if a < b then b else a) = max a b := by
  split <;> omega

theorem oneIsNegativeAND_spec (cx : x.Canonical) (cy : y.Canonical) (negative : y.sign = true) :
    Returns (oneIsNegativeAND x y) (Nat.ldiff (magnitude x.digits) (magnitude y.digits - 1) : Nat) := by
  obtain ⟨yVal, ranY, canonicalY, valueY⟩ := subOne_spec cy negative (Nat.le_refl _) cy.size
  obtain ⟨low, ranLow, combined⟩ := digitLoop_spec (fun a b => a &&& ~~~b) x.digits yVal.digits
    (List.replicate x.length 0) (min x.length yVal.length) (Nat.min_le_left _ _)
    (Nat.min_le_right _ _) (by rw [List.length_replicate]; exact Nat.min_le_left _ _)
  have lenLow := combined.length
  rw [List.length_replicate] at lenLow
  obtain ⟨digits, ran, len, value⟩ := maskLoop_spec x.digits yVal.digits lenLow fun k less => by
    obtain ⟨a, b, readX, readY, read⟩ := combined.done k less
    rw [words.weightAt_eq readX, words.weightAt_eq readY, words.weightAt_eq read]
    exact toNat_and_not a b
  have len' : digits.length = x.length := len
  have ran' : forRange (copyRound x.digits) (min x.length yVal.length)
    (x.length - min x.length yVal.length) low = .ok digits := ran
  have := cx.positive
  have := cx.size
  simp only [oneIsNegativeAND, ranY, ok_bind, if_gt_eq_min, createBigint_of_le cx.size, ranLow, ran']
  rw [← valueY, ← value]
  exact rightTruncate_unsigned (by omega) (by omega)

theorem oneIsNegativeXOR_spec (cx : x.Canonical) (cy : y.Canonical) (negative : y.sign = true) :
    ReturnsOr sizeExceeded (oneIsNegativeXOR x y)
      (Int.negSucc (magnitude x.digits ^^^ (magnitude y.digits - 1))) := by
  obtain ⟨yVal, ranY, canonicalY, valueY⟩ := subOne_spec cy negative (Nat.le_refl _) cy.size
  obtain ⟨temp, ran, canonical, -, value⟩ := (bitwiseOp_spec .xor cx canonicalY).natural
  have result := bitwiseAddOne_spec canonical
  rw [value, valueY] at result
  rw [oneIsNegativeXOR, ranY, ok_bind, ran, ok_bind]
  exact result

theorem oneIsNegativeOR_spec (cx : x.Canonical) (cy : y.Canonical) (negative : y.sign = true) :
    ReturnsOr sizeExceeded (oneIsNegativeOR x y)
      (Int.negSucc (Nat.ldiff (magnitude y.digits - 1) (magnitude x.digits))) := by
  obtain ⟨yVal, ranY, canonicalY, valueY⟩ := subOne_spec cy negative
    (Nat.le_max_right x.length y.length) (Nat.max_le.mpr ⟨cx.size, cy.size⟩)
  obtain ⟨low, ranLow, combined⟩ := digitLoop_spec (fun a b => ~~~a &&& b) x.digits yVal.digits
    (List.replicate yVal.length 0) (min x.length yVal.length) (Nat.min_le_left _ _)
    (Nat.min_le_right _ _) (by rw [List.length_replicate]; exact Nat.min_le_right _ _)
  have lenLow := combined.length
  rw [List.length_replicate] at lenLow
  obtain ⟨digits, ran, len, value⟩ := maskLoop_spec yVal.digits x.digits lenLow fun k less => by
    obtain ⟨a, b, readX, readY, read⟩ := combined.done k (by rw [length, length]; omega)
    rw [words.weightAt_eq readX, words.weightAt_eq readY, words.weightAt_eq read]
    rw [words_weight, UInt32.and_comm]
    exact toNat_and_not b a
  have len' : digits.length = yVal.length := len
  have ran' : forRange (copyRound yVal.digits) (min x.length yVal.length)
      (yVal.length - min x.length yVal.length) low = .ok digits := by
    rw [Nat.min_comm]
    exact ran
  have := canonicalY.positive
  have := canonicalY.size
  obtain ⟨temp, ranTemp, canonical, -, valueTemp⟩ := (rightTruncate_unsigned
    (show 0 < digits.length by omega) (show digits.length ≤ maxSize by omega)).natural
  have result := bitwiseAddOne_spec canonical
  rw [valueTemp, value, valueY] at result
  simp only [oneIsNegativeOR, if_lt_eq_max, ranY, ok_bind, if_gt_eq_min,
    createBigint_of_le canonicalY.size, ranLow, ran', ranTemp]
  exact result.set_sign_true

/-! ## The operations -/

theorem bitwiseAND_spec (cx : x.Canonical) (cy : y.Canonical) :
    ReturnsOr sizeExceeded (bitwiseAND x y) (Int.land x.toInt y.toInt) := by
  unfold bitwiseAND
  rcases sx : x.sign with _ | _ <;> rcases sy : y.sign with _ | _
  · rw [if_neg (by simp), if_neg (by simp), toInt_of_not_sign sx, toInt_of_not_sign sy]
    exact .inr (bitwiseOp_spec .and cx cy)
  · rw [if_neg (by simp), if_pos (by simp), if_pos (by simp), toInt_of_not_sign sx,
      cy.toInt_negSucc sy]
    exact .inr (oneIsNegativeAND_spec cx cy sy)
  · rw [if_neg (by simp), if_pos (by simp), if_neg (by simp), toInt_of_not_sign sy,
      cx.toInt_negSucc sx]
    exact .inr (oneIsNegativeAND_spec cy cx sx)
  · obtain ⟨xVal, ranX, canonicalX, valueX⟩ := subOne_spec cx sx (Nat.le_refl _) cx.size
    obtain ⟨yVal, ranY, canonicalY, valueY⟩ := subOne_spec cy sy (Nat.le_refl _) cy.size
    obtain ⟨temp, ran, canonical, -, value⟩ := (bitwiseOp_spec .or canonicalX canonicalY).natural
    have result := bitwiseAddOne_spec canonical
    rw [value, valueX, valueY] at result
    rw [if_pos (by simp), ranX, ok_bind, ranY, ok_bind, ran, ok_bind, cx.toInt_negSucc sx,
      cy.toInt_negSucc sy]
    exact result

theorem bitwiseOR_spec (cx : x.Canonical) (cy : y.Canonical) :
    ReturnsOr sizeExceeded (bitwiseOR x y) (Int.lor x.toInt y.toInt) := by
  unfold bitwiseOR
  rcases sx : x.sign with _ | _ <;> rcases sy : y.sign with _ | _
  · rw [if_neg (by simp), if_neg (by simp), toInt_of_not_sign sx, toInt_of_not_sign sy]
    exact .inr (bitwiseOp_spec .or cx cy)
  · rw [if_neg (by simp), if_pos (by simp), if_pos (by simp), toInt_of_not_sign sx,
      cy.toInt_negSucc sy]
    exact oneIsNegativeOR_spec cx cy sy
  · rw [if_neg (by simp), if_pos (by simp), if_neg (by simp), toInt_of_not_sign sy,
      cx.toInt_negSucc sx]
    exact oneIsNegativeOR_spec cy cx sx
  · obtain ⟨xVal, ranX, canonicalX, valueX⟩ := subOne_spec cx sx
      (Nat.le_max_left x.length y.length) (Nat.max_le.mpr ⟨cx.size, cy.size⟩)
    obtain ⟨yVal, ranY, canonicalY, valueY⟩ := subOne_spec cy sy (Nat.le_refl _) cy.size
    obtain ⟨temp, ran, canonical, -, value⟩ := (bitwiseOp_spec .and canonicalX canonicalY).natural
    have result := bitwiseAddOne_spec canonical
    rw [value, valueX, valueY] at result
    rw [if_pos (by simp)]
    simp only [if_lt_eq_max]
    rw [ranX, ok_bind, ranY, ok_bind, ran, ok_bind, cx.toInt_negSucc sx, cy.toInt_negSucc sy]
    exact result.set_sign_true

theorem bitwiseXOR_spec (cx : x.Canonical) (cy : y.Canonical) :
    ReturnsOr sizeExceeded (bitwiseXOR x y) (Int.xor x.toInt y.toInt) := by
  unfold bitwiseXOR
  rcases sx : x.sign with _ | _ <;> rcases sy : y.sign with _ | _
  · rw [if_neg (by simp), if_neg (by simp), toInt_of_not_sign sx, toInt_of_not_sign sy]
    exact .inr (bitwiseOp_spec .xor cx cy)
  · rw [if_neg (by simp), if_pos (by simp), if_pos (by simp), toInt_of_not_sign sx,
      cy.toInt_negSucc sy]
    exact oneIsNegativeXOR_spec cx cy sy
  · have result := oneIsNegativeXOR_spec cy cx sx
    rw [if_neg (by simp), if_pos (by simp), if_neg (by simp), toInt_of_not_sign sy,
      cx.toInt_negSucc sx]
    rw [Nat.xor_comm] at result
    exact result
  · obtain ⟨xVal, ranX, canonicalX, valueX⟩ := subOne_spec cx sx (Nat.le_refl _) cx.size
    obtain ⟨yVal, ranY, canonicalY, valueY⟩ := subOne_spec cy sy (Nat.le_refl _) cy.size
    have result := bitwiseOp_spec .xor canonicalX canonicalY
    rw [valueX, valueY] at result
    rw [if_pos (by simp), ranX, ok_bind, ranY, ok_bind, cx.toInt_negSucc sx, cy.toInt_negSucc sy]
    exact .inr result

theorem bigintAddOne_spec (cx : x.Canonical) :
    ReturnsOr sizeExceeded (bigintAddOne x) (x.toInt + 1) := by
  rw [bigintAddOne, int32ToBigInt_one, ok_bind]
  exact add_spec cx (canonical_single (by decide))

theorem bitwiseNOT_spec (cx : x.Canonical) :
    ReturnsOr sizeExceeded (bitwiseNOT x) (Int.lnot x.toInt) := by
  unfold bitwiseNOT
  rcases bigintAddOne_spec cx with failed | ⟨r, ran, canonical, value⟩
  · exact .inl (by rw [failed]; rfl)
  right
  rw [ran, ok_bind, pure_eq_ok]
  have size := toInt_natAbs r
  rw [value] at size
  rcases sign : x.sign with _ | _
  · rw [toInt_of_not_sign sign] at value size ⊢
    refine ⟨_, rfl, canonical.set_sign fun zero => ?_, ?_⟩
    · rw [canonical.toInt_eq_zero_iff.mpr zero] at value
      omega
    · rw [toInt_of_sign rfl]
      show -(magnitude r.digits : Int) = Int.negSucc (magnitude x.digits)
      rw [Int.negSucc_eq]
      omega
  · have positive := cx.magnitude_pos (cx.digits_ne_of_sign sign)
    rw [cx.toInt_negSucc sign] at value size ⊢
    refine ⟨_, rfl, canonical.set_sign fun _ => rfl, ?_⟩
    rw [toInt_of_not_sign rfl]
    show (magnitude r.digits : Int) = (magnitude x.digits - 1 : Nat)
    rw [Int.negSucc_eq] at size
    omega

/-- The call throws the RangeError of `CreateBigint`, or returns the canonical BigInt with the given
    infinite two's complement bits. -/
def ReturnsBits (result : Except BigIntFault BigInt) (bit : Nat → Bool) : Prop :=
  result = .error sizeExceeded ∨
    ∃ r, result = .ok r ∧ r.Canonical ∧ ∀ i, r.toInt.testBit i = bit i

theorem ReturnsOr.bits {v : Int} {bit : Nat → Bool} (returns : ReturnsOr sizeExceeded result v)
    (bits : ∀ i, v.testBit i = bit i) : ReturnsBits result bit := by
  rcases returns with failed | ⟨r, ran, canonical, rfl⟩
  · exact .inl failed
  · exact .inr ⟨r, ran, canonical, bits⟩

/-- The bitwise operations act on the infinite two's complement bits of their operands. -/
theorem bitwise_operations_testBit (x y : BigInt) (cx : x.Canonical) (cy : y.Canonical) :
    ReturnsBits (bitwiseAND x y) (fun i => x.toInt.testBit i && y.toInt.testBit i) ∧
    ReturnsBits (bitwiseOR x y) (fun i => x.toInt.testBit i || y.toInt.testBit i) ∧
    ReturnsBits (bitwiseXOR x y) (fun i => x.toInt.testBit i ^^ y.toInt.testBit i) ∧
    ReturnsBits (bitwiseNOT x) (fun i => !x.toInt.testBit i) :=
  ⟨(bitwiseAND_spec cx cy).bits (Int.testBit_land _ _),
    (bitwiseOR_spec cx cy).bits (Int.testBit_lor _ _),
    (bitwiseXOR_spec cx cy).bits (Int.testBit_lxor _ _),
    (bitwiseNOT_spec cx).bits (Int.testBit_lnot _)⟩

theorem bitwise_operations_testBit_mixed :
    let x : BigInt := ⟨false, [0, 1]⟩
    let y : BigInt := ⟨true, [0, 1]⟩
    x.Canonical ∧ y.Canonical ∧
      ReturnsBits (bitwiseAND x y) (fun i => x.toInt.testBit i && y.toInt.testBit i) ∧
      ReturnsBits (bitwiseOR x y) (fun i => x.toInt.testBit i || y.toInt.testBit i) ∧
      ReturnsBits (bitwiseXOR x y) (fun i => x.toInt.testBit i ^^ y.toInt.testBit i) ∧
      ReturnsBits (bitwiseNOT x) (fun i => !x.toInt.testBit i) := by
  intro x y
  have cx : x.Canonical := by decide
  have cy : y.Canonical := by decide
  exact ⟨cx, cy, bitwise_operations_testBit x y cx cy⟩

end BigInt

end ArkRuntime
