import Mathlib.Data.List.Lex
import Mathlib.Data.Nat.Digits.Defs
import Mathlib.Data.Nat.Log

/-!
# `IntLexicographicCompare`

The order of two integers by their decimal strings (`ecmascript/js_tagged_value.cpp`), which `Array.sort` uses
without a callback, computed from the digit counts without the strings. A shorter number is scaled up to one
digit less than the longer one, which drops its last digit. `-xValue` wraps around for the least `int32_t`.
-/

namespace ArkRuntime

namespace Lexicographic

/-! ## Decimal strings -/

/-- The code units of a natural number. -/
def decimalDigits (n : Nat) : List Nat :=
  if n = 0 then [48] else (Nat.digits 10 n).reverse.map (48 + ·)

/-- The code units of an integer. -/
def decimalString (x : Int) : List Nat :=
  if x < 0 then 45 :: decimalDigits x.natAbs else decimalDigits x.natAbs

/-- The last digits of a number. -/
def lastDigits : Nat → Nat → List Nat
  | 0, _ => []
  | d + 1, n => lastDigits d (n / 10) ++ [48 + n % 10]

/-- The number has `d + 1` digits. -/
def HasDigits (d n : Nat) : Prop := n < 10 ^ (d + 1) ∧ (10 ^ d ≤ n ∨ d = 0)

variable {d e n m : Nat} {l k r s : List Nat}

theorem HasDigits.decimalDigits_eq (digits : HasDigits d n) : decimalDigits n = lastDigits (d + 1) n := by
  induction d generalizing n with
  | zero =>
    have below : n < 10 := by simpa using digits.1
    rw [decimalDigits]
    split_ifs with zero
    · rw [zero]
      rfl
    · rw [Nat.digits_def' (by decide) (by omega), Nat.div_eq_of_lt below, Nat.digits_zero]
      rfl
  | succ d ih =>
    obtain ⟨high, low⟩ := digits
    have low : 10 ^ (d + 1) ≤ n := low.resolve_right (Nat.succ_ne_zero d)
    have positive := Nat.pos_of_ne_zero (n := 10 ^ d) (by positivity)
    have tens : 10 ^ (d + 1) = 10 * 10 ^ d := by rw [Nat.pow_succ, Nat.mul_comm]
    have next : HasDigits d (n / 10) := by
      refine ⟨?_, .inl ?_⟩
      · rw [Nat.pow_succ] at high
        omega
      · omega
    have rest := ih next
    rw [decimalDigits, if_neg (by omega)] at rest
    rw [lastDigits, ← rest, decimalDigits, if_neg (by omega), Nat.digits_def' (by decide) (by omega),
      List.reverse_cons, List.map_append]
    rfl

theorem length_lastDigits (d n : Nat) : (lastDigits d n).length = d := by
  induction d generalizing n with
  | zero => rfl
  | succ d ih => rw [lastDigits, List.length_append, ih, List.length_singleton]

theorem lastDigits_add (d e n : Nat) :
    lastDigits (d + e) n = lastDigits d (n / 10 ^ e) ++ lastDigits e n := by
  induction e generalizing n with
  | zero => rw [Nat.pow_zero, Nat.div_one, lastDigits, List.append_nil, Nat.add_zero]
  | succ e ih =>
    rw [← Nat.add_assoc, lastDigits, ih, lastDigits, ← List.append_assoc, Nat.div_div_eq_div_mul,
      Nat.pow_succ, Nat.mul_comm 10]

/-! ## The lexicographic order -/

theorem append_lt_append (same : l.length = k.length) : l ++ r < k ++ s ↔ l < k ∨ (l = k ∧ r < s) := by
  induction l generalizing k with
  | nil =>
    obtain rfl := List.length_eq_zero_iff.mp same.symm
    simp
  | cons a l ih =>
    obtain ⟨b, k, rfl⟩ := List.exists_cons_of_length_eq_add_one same.symm
    simp only [List.cons_append, List.cons_lt_cons_iff, ih (Nat.succ.inj same), List.cons.injEq]
    grind

theorem eq_iff_of_lt_iff (less : l < k ↔ n < m) (greater : k < l ↔ m < n) : l = k ↔ n = m := by
  have strict : l = k ↔ ¬ l < k ∧ ¬ k < l := by
    rw [not_lt, not_lt, and_comm]
    exact le_antisymm_iff
  rw [strict, less, greater]
  omega

theorem lastDigits_lt_iff (hn : n < 10 ^ d) (hm : m < 10 ^ d) : lastDigits d n < lastDigits d m ↔ n < m := by
  induction d generalizing n m with
  | zero => simp at hn hm; simp [hn, hm]
  | succ d ih =>
    have less (a b : Nat) : [48 + a] < [48 + b] ↔ a < b := by simp [List.cons_lt_cons_iff]
    rw [Nat.pow_succ] at hn hm
    have first := ih (n := n / 10) (m := m / 10) (by omega) (by omega)
    have second := ih (n := m / 10) (m := n / 10) (by omega) (by omega)
    rw [lastDigits, lastDigits, append_lt_append (by rw [length_lastDigits, length_lastDigits]), less,
      eq_iff_of_lt_iff first second, first]
    omega

/-- Numbers with as many digits are in the order of their strings. -/
theorem decimalDigits_lt_iff (hn : HasDigits d n) (hm : HasDigits d m) :
    decimalDigits n < decimalDigits m ↔ n < m := by
  rw [hn.decimalDigits_eq, hm.decimalDigits_eq, lastDigits_lt_iff hn.1 hm.1]

/-- A longer number is compared by its first digits, and is greater if they are those of the other. -/
theorem decimalDigits_longer (hn : HasDigits (d + e + 1) n) (hm : HasDigits d m) :
    (decimalDigits n < decimalDigits m ↔ n / 10 ^ (e + 1) < m) ∧
      (decimalDigits m < decimalDigits n ↔ m ≤ n / 10 ^ (e + 1)) := by
  have first : n / 10 ^ (e + 1) < 10 ^ (d + 1) := by
    rw [Nat.div_lt_iff_lt_mul (by positivity), ← Nat.pow_add]
    exact Nat.lt_of_lt_of_eq hn.1 (by congr 1; omega)
  have rest : lastDigits (e + 1) n ≠ [] := by
    intro none
    have := length_lastDigits (e + 1) n
    rw [none] at this
    cases this
  have lengths : (lastDigits (d + 1) (n / 10 ^ (e + 1))).length = (lastDigits (d + 1) m).length := by
    rw [length_lastDigits, length_lastDigits]
  obtain ⟨c, tail, some⟩ := List.exists_cons_of_ne_nil rest
  have less := lastDigits_lt_iff first hm.1
  have greater := lastDigits_lt_iff hm.1 first
  rw [hn.decimalDigits_eq, hm.decimalDigits_eq, show d + e + 1 + 1 = d + 1 + (e + 1) by omega, lastDigits_add,
    ← List.append_nil (lastDigits (d + 1) m), append_lt_append lengths, append_lt_append lengths.symm,
    eq_iff_of_lt_iff greater less, less, greater, some]
  simp only [List.not_lt_nil, and_false, or_false, List.nil_lt_cons, and_true, true_and]
  omega

/-! ## The comparison -/

/-- `CountLeadingZeros`, for `bits = 2 ^ k`. -/
def countLeadingZeros (value : UInt32) : Nat → UInt32
  | 0 => value ^^^ 1
  | k + 1 =>
      let half := UInt32.ofNat (2 ^ (k + 1) / 2)
      let upperHalf := value >>> half
      let nextValue := if upperHalf ≠ 0 then upperHalf else value
      let add := if upperHalf ≠ 0 then 0 else half
      countLeadingZeros nextValue k + add

/-- An index outside of `kPowersOf10`, and a product above `2 ^ 32 - 1`. The source would go on. -/
inductive Fault where
  | index (i : Int)
  | product (a b : UInt32)
  deriving DecidableEq, Repr

def kPowersOf10 : List UInt32 :=
  [1, 10, 100, 1000, 10000, 100000, 1000000, 10000000, 100000000, 1000000000]

def getPower (i : Int) : Except Fault UInt32 :=
  match if 0 ≤ i then kPowersOf10[i.toNat]? else none with
  | some power => .ok power
  | none => .error (.index i)

def multiply (a b : UInt32) : Except Fault UInt32 :=
  if a.toNat * b.toNat < 2 ^ 32 then .ok (a * b) else .error (.product a b)

/-- `xDigit` and `yDigit`. -/
def digitOf (unsigned : UInt32) : Except Fault Int := do
  let log2 : Int := 31 - (countLeadingZeros unsigned 5).toNat
  let digit := ((log2 + 1) * 1233) >>> (12 : Nat)
  let power ← getPower digit
  return digit - if unsigned < power then 1 else 0

/-- The longer number without its last digit, and the shorter one scaled to as many digits. -/
def dropDigit (longer shorter : UInt32) (more : Int) : Except Fault (UInt32 × UInt32) := do
  let power ← getPower (more - 1)
  let product ← multiply shorter power
  return (longer / 10, product)

/-- The last comparison; `res` is the result for numbers that are the same. -/
def compareScaled (unsignedX unsignedY : UInt32) (res : Int) : Int :=
  if unsignedX > unsignedY then 1 else if unsignedY > unsignedX then -1 else res

/-- What follows the comparison of the signs. -/
def compareUnsigned (unsignedX unsignedY : UInt32) : Except Fault Int := do
  let xDigit ← digitOf unsignedX
  let yDigit ← digitOf unsignedY
  if xDigit > yDigit then do
    let (unsignedX, unsignedY) ← dropDigit unsignedX unsignedY (xDigit - yDigit)
    return compareScaled unsignedX unsignedY 1
  else if yDigit > xDigit then do
    let (unsignedY, unsignedX) ← dropDigit unsignedY unsignedX (yDigit - xDigit)
    return compareScaled unsignedX unsignedY (-1)
  else return compareScaled unsignedX unsignedY 0

/-- `IntLexicographicCompare`. -/
def intLexicographicCompare (xValue yValue : Int32) : Except Fault Int :=
  if xValue = yValue then .ok 0
  else if xValue = 0 ∨ yValue = 0 then .ok (if xValue > yValue then 1 else -1)
  else if yValue > 0 then
    if xValue < 0 then .ok (-1) else compareUnsigned xValue.toUInt32 yValue.toUInt32
  else
    if xValue > 0 then .ok 1 else compareUnsigned (-xValue).toUInt32 (-yValue).toUInt32

/-! ## Digit counts -/

theorem countLeadingZeros_spec (k : Nat) (le : k ≤ 5) (value : UInt32) (positive : value.toNat ≠ 0)
    (small : value.toNat < 2 ^ 2 ^ k) :
    (countLeadingZeros value k).toNat + Nat.log 2 value.toNat + 1 = 2 ^ k := by
  induction k generalizing value with
  | zero =>
    have one : value = 1 := by
      apply UInt32.toNat_inj.mp
      have : (1 : UInt32).toNat = 1 := rfl
      omega
    rw [one]
    rfl
  | succ k ih =>
    have bound : 2 ^ k ≤ 2 ^ 4 := Nat.pow_le_pow_right (by decide) (by omega)
    have twice : 2 ^ (k + 1) / 2 = 2 ^ k := by rw [Nat.pow_succ, Nat.mul_div_cancel _ (by decide)]
    have half : (UInt32.ofNat (2 ^ k)).toNat = 2 ^ k := by
      rw [UInt32.toNat_ofNat']
      exact Nat.mod_eq_of_lt (by omega)
    have upper : (value >>> UInt32.ofNat (2 ^ k)).toNat = value.toNat / 2 ^ 2 ^ k := by
      rw [UInt32.toNat_shiftRight, half, Nat.mod_eq_of_lt (by omega), Nat.shiftRight_eq_div_pow]
    have square : 2 ^ 2 ^ (k + 1) = 2 ^ 2 ^ k * 2 ^ 2 ^ k := by rw [Nat.pow_succ 2 k, Nat.mul_two, Nat.pow_add]
    rw [countLeadingZeros]
    simp only [twice]
    have zero_iff : value >>> UInt32.ofNat (2 ^ k) = 0 ↔ value.toNat / 2 ^ 2 ^ k = 0 := by
      rw [← UInt32.toNat_inj, upper]
      rfl
    by_cases none : value >>> UInt32.ofNat (2 ^ k) = 0
    · have below : value.toNat < 2 ^ 2 ^ k :=
        (Nat.div_eq_zero_iff.mp (zero_iff.mp none)).resolve_left (by positivity)
      have rest := ih (by omega) value positive below
      rw [if_neg (not_not_intro none), if_neg (not_not_intro none), UInt32.toNat_add, half, Nat.pow_succ]
      omega
    · have above := zero_iff.not.mp none
      have rest := ih (by omega) (value >>> UInt32.ofNat (2 ^ k)) (by rw [upper]; exact above) (by
        rw [upper, Nat.div_lt_iff_lt_mul (by positivity), ← square]
        exact small)
      have log : Nat.log 2 value.toNat = Nat.log 2 (value.toNat / 2 ^ 2 ^ k) + 2 ^ k := by
        rw [Nat.log_div_base_pow, Nat.sub_add_cancel]
        refine Nat.le_log_of_pow_le (by decide) ?_
        by_contra small
        exact above (Nat.div_eq_of_lt (Nat.not_le.mp small))
      rw [if_pos none, if_pos none, UInt32.add_zero, log, Nat.pow_succ]
      rw [upper] at rest
      omega

/-- The approximation is the digit count or one more. -/
theorem approximation : ∀ t < 32, let e := (t + 1) * 1233 / 4096
    e < 10 ∧ 2 ^ (t + 1) ≤ 10 ^ (e + 1) ∧ (e = 0 ∨ 10 ^ (e - 1) ≤ 2 ^ t) := by
  decide

theorem getPower_eq {i : Nat} (inside : i < 10) :
    ∃ power : UInt32, getPower i = .ok power ∧ power.toNat = 10 ^ i := by
  have table : ∀ i < 10, kPowersOf10[i]?.map UInt32.toNat = some (10 ^ i) := by decide
  obtain ⟨power, read, value⟩ := Option.map_eq_some_iff.mp (table i inside)
  refine ⟨power, ?_, value⟩
  rw [getPower, if_pos (Int.natCast_nonneg i), Int.toNat_natCast, read]

theorem digitOf_spec (unsigned : UInt32) (positive : unsigned ≠ 0) :
    ∃ d : Nat, d < 10 ∧ digitOf unsigned = .ok d ∧ HasDigits d unsigned.toNat := by
  have nonzero : unsigned.toNat ≠ 0 := fun zero => positive (UInt32.toNat_inj.mp zero)
  have zeros := countLeadingZeros_spec 5 (by decide) unsigned nonzero unsigned.toNat_lt
  have low := Nat.pow_log_le_self 2 nonzero
  have high := Nat.lt_pow_succ_log_self (by decide : 1 < 2) unsigned.toNat
  generalize Nat.log 2 unsigned.toNat = t at zeros low high
  obtain ⟨index, upper, lower⟩ := approximation t (by omega)
  have log : (31 - (countLeadingZeros unsigned 5).toNat : Int) = t := by omega
  have digit : (((t : Int) + 1) * 1233) >>> (12 : Nat) = ((t + 1) * 1233 / 4096 : Nat) := by
    rw [Int.shiftRight_eq_div_pow]
    omega
  rw [digitOf, log, digit]
  generalize (t + 1) * 1233 / 4096 = e at *
  obtain ⟨power, read, value⟩ := getPower_eq index
  have compare : unsigned < power ↔ unsigned.toNat < 10 ^ e := by rw [UInt32.lt_iff_toNat_lt, value]
  rw [read]
  by_cases below : unsigned < power
  · have less := compare.mp below
    have some : e ≠ 0 := by
      rintro rfl
      omega
    refine ⟨e - 1, by omega, ?_, ?_, .inl ((lower.resolve_left some).trans low)⟩
    · change Except.ok ((e : Int) - if unsigned < power then 1 else 0) = _
      rw [if_pos below]
      exact congrArg Except.ok (by omega)
    · rwa [Nat.sub_add_cancel (Nat.pos_of_ne_zero some)]
  · have more := compare.not.mp below
    refine ⟨e, index, ?_, Nat.lt_of_lt_of_le high upper, .inl (Nat.not_lt.mp more)⟩
    change Except.ok ((e : Int) - if unsigned < power then 1 else 0) = _
    rw [if_neg below, Int.sub_zero]

/-! ## The order of the strings -/

/-- The result of a comparison is the order of two strings. -/
def IsOrder (s t : List Nat) (res : Int) : Prop :=
  (res < 0 ↔ s < t) ∧ (res = 0 ↔ s = t) ∧ (0 < res ↔ t < s)

theorem isOrder_less {s t : List Nat} (less : s < t) : IsOrder s t (-1) :=
  ⟨iff_of_true (by decide) less, iff_of_false (by decide) (ne_of_lt less),
    iff_of_false (by decide) (lt_asymm less)⟩

theorem isOrder_greater {s t : List Nat} (greater : t < s) : IsOrder s t 1 :=
  ⟨iff_of_false (by decide) (lt_asymm greater), iff_of_false (by decide) (ne_of_gt greater),
    iff_of_true (by decide) greater⟩

theorem isOrder_equal (s : List Nat) : IsOrder s s 0 :=
  ⟨iff_of_false (by decide) (lt_irrefl s), iff_of_true rfl rfl, iff_of_false (by decide) (lt_irrefl s)⟩

theorem multiply_eq {a b : UInt32} (fits : a.toNat * b.toNat < 2 ^ 32) :
    multiply a b = .ok (a * b) ∧ (a * b).toNat = a.toNat * b.toNat :=
  ⟨if_pos fits, by rw [UInt32.toNat_mul, Nat.mod_eq_of_lt fits]⟩

theorem dropDigit_spec {longer shorter : UInt32} (hn : HasDigits (d + e + 1) longer.toNat)
    (hm : HasDigits d shorter.toNat) (small : d + e + 1 < 10) :
    ∃ r, dropDigit longer shorter (((d + e + 1 : Nat) : Int) - d) = .ok r ∧
      (r.1 < r.2 ↔ decimalDigits longer.toNat < decimalDigits shorter.toNat) ∧
      (¬ r.1 < r.2 → decimalDigits shorter.toNat < decimalDigits longer.toNat) := by
  obtain ⟨power, read, value⟩ := getPower_eq (show e < 10 by omega)
  obtain ⟨less, greater⟩ := decimalDigits_longer hn hm
  have low := hn.2.resolve_right (Nat.succ_ne_zero _)
  have product : shorter.toNat * 10 ^ e < 10 ^ (d + e + 1) := by
    rw [show d + e + 1 = d + 1 + e by omega, Nat.pow_add]
    exact Nat.mul_lt_mul_of_pos_right hm.1 (by positivity)
  have below := longer.toNat_lt
  obtain ⟨fits, scaled⟩ := multiply_eq (a := shorter) (b := power) (by rw [value]; omega)
  have compare : longer / 10 < shorter * power ↔ longer.toNat / 10 ^ (e + 1) < shorter.toNat := by
    have ten : (10 : UInt32).toNat = 10 := rfl
    rw [UInt32.lt_iff_toNat_lt, scaled, value, UInt32.toNat_div, ten, Nat.pow_succ, Nat.mul_comm (10 ^ e),
      ← Nat.div_div_eq_div_mul, Nat.div_lt_iff_lt_mul (Nat.pow_pos (by decide))]
  refine ⟨(longer / 10, shorter * power), ?_, compare.trans less.symm, fun other => ?_⟩
  · rw [dropDigit, show ((d + e + 1 : Nat) : Int) - d - 1 = e by omega, read]
    change (multiply shorter power >>= fun product => pure (longer / 10, product)) = _
    rw [fits]
    rfl
  · exact greater.mpr (Nat.not_lt.mp (compare.not.mp other))

theorem compareUnsigned_spec {unsignedX unsignedY : UInt32} (hx : unsignedX ≠ 0) (hy : unsignedY ≠ 0) :
    ∃ res, compareUnsigned unsignedX unsignedY = .ok res ∧
      IsOrder (decimalDigits unsignedX.toNat) (decimalDigits unsignedY.toNat) res := by
  obtain ⟨dx, smallX, digitX, digitsX⟩ := digitOf_spec unsignedX hx
  obtain ⟨dy, smallY, digitY, digitsY⟩ := digitOf_spec unsignedY hy
  have ok_bind {α β : Type} (a : α) (f : α → Except Fault β) : (Except.ok a >>= f) = f a := rfl
  rw [compareUnsigned, digitX, digitY, ok_bind, ok_bind]
  rcases Nat.lt_trichotomy dx dy with less | rfl | greater
  · obtain ⟨e, rfl⟩ := Nat.exists_eq_add_of_lt less
    obtain ⟨⟨y, x⟩, dropped, compare, other⟩ := dropDigit_spec digitsY digitsX smallY
    rw [if_neg (by omega), if_pos (by omega), dropped]
    refine ⟨compareScaled x y (-1), rfl, ?_⟩
    rw [compareScaled]
    by_cases above : x > y
    · rw [if_pos above]
      exact isOrder_greater (compare.mp above)
    · rw [if_neg above, ite_self]
      exact isOrder_less (other above)
  · rw [if_neg (by omega), if_neg (by omega)]
    refine ⟨compareScaled unsignedX unsignedY 0, rfl, ?_⟩
    have below := decimalDigits_lt_iff digitsX digitsY
    have above := decimalDigits_lt_iff digitsY digitsX
    rw [compareScaled]
    split_ifs with more less
    · exact isOrder_greater (above.mpr more)
    · exact isOrder_less (below.mpr less)
    · rw [gt_iff_lt, UInt32.lt_iff_toNat_lt] at more less
      rw [Nat.le_antisymm (Nat.not_lt.mp more) (Nat.not_lt.mp less)]
      exact isOrder_equal _
  · obtain ⟨e, rfl⟩ := Nat.exists_eq_add_of_lt greater
    obtain ⟨⟨x, y⟩, dropped, compare, other⟩ := dropDigit_spec digitsX digitsY smallX
    rw [if_pos (by omega), dropped]
    refine ⟨compareScaled x y 1, rfl, ?_⟩
    rw [compareScaled]
    by_cases below : x < y
    · rw [if_neg (UInt32.lt_asymm below), if_pos below]
      exact isOrder_less (compare.mp below)
    · rw [if_neg (c := y > x) below, ite_self]
      exact isOrder_greater (other below)

/-! ## Signs -/

/-- The absolute value of an `int32_t`; that of the least one does not fit into an `int32_t`. -/
theorem toNat_natAbs (x : Int32) : (0 < x → x.toUInt32.toNat = x.toInt.natAbs ∧ 0 < x.toInt) ∧
    (x < 0 → (-x).toUInt32.toNat = x.toInt.natAbs ∧ x.toInt < 0) := by
  have value : x.toInt =
      if 2 * x.toUInt32.toNat < 2 ^ 32 then (x.toUInt32.toNat : Int) else x.toUInt32.toNat - (2 ^ 32 : Nat) :=
    BitVec.toInt_eq_toNat_cond x.toBitVec
  have small := x.toUInt32.toNat_lt
  have negated : (-x).toUInt32.toNat = (2 ^ 32 - x.toUInt32.toNat) % 2 ^ 32 := by
    rw [Int32.toUInt32_neg, UInt32.toNat_neg]
    rfl
  rw [Int32.lt_iff_toInt_lt, Int32.lt_iff_toInt_lt, Int32.toInt_zero]
  constructor <;> intro sign <;> split_ifs at value <;> omega

theorem hasDigits_log (n : Nat) : HasDigits (Nat.log 10 n) n := by
  refine ⟨Nat.lt_pow_succ_log_self (by decide) n, ?_⟩
  by_cases zero : n = 0
  · rw [zero]
    exact .inr (Nat.log_zero_right 10)
  · exact .inl (Nat.pow_log_le_self 10 zero)

theorem zero_lt_decimalDigits {n : Nat} (positive : n ≠ 0) : decimalDigits 0 < decimalDigits n := by
  have zero : HasDigits 0 0 := ⟨by decide, .inr rfl⟩
  have digits := hasDigits_log n
  generalize Nat.log 10 n = d at digits
  cases d with
  | zero => exact (decimalDigits_lt_iff zero digits).mpr (Nat.pos_of_ne_zero positive)
  | succ e =>
    rw [← Nat.zero_add e] at digits
    exact (decimalDigits_longer digits zero).2.mpr (Nat.zero_le _)

/-- The minus sign is less than all digits. -/
theorem minus_lt_decimalDigits (l : List Nat) (n : Nat) : 45 :: l < decimalDigits n := by
  rw [decimalDigits]
  split_ifs with zero
  · exact List.cons_lt_cons_iff.mpr (.inl (by decide))
  · obtain ⟨digit, rest, some⟩ := List.exists_cons_of_ne_nil
      (mt List.reverse_eq_nil_iff.mp (Nat.digits_ne_nil_iff_ne_zero (b := 10).mpr zero))
    rw [some]
    exact List.cons_lt_cons_iff.mpr (.inl (Nat.lt_of_lt_of_le (by decide) (Nat.le_add_right 48 digit)))

theorem isOrder_cons {c : Nat} {s t : List Nat} {res : Int} (order : IsOrder s t res) :
    IsOrder (c :: s) (c :: t) res := by
  simpa [IsOrder, List.cons_lt_cons_iff] using order

/-- `IntLexicographicCompare` orders two integers by their decimal strings; no index leaves the table, and no
    product wraps around. -/
theorem intLexicographicCompare_spec (x y : Int32) :
    ∃ res, intLexicographicCompare x y = .ok res ∧
      IsOrder (decimalString x.toInt) (decimalString y.toInt) res := by
  have signs (z : Int32) : z = 0 ∧ z.toInt = 0 ∨ 0 < z ∧ 0 < z.toInt ∨ z < 0 ∧ z.toInt < 0 := by
    rw [← Int32.toInt_inj, Int32.lt_iff_toInt_lt, Int32.lt_iff_toInt_lt, Int32.toInt_zero]
    omega
  have notNegative {z : Int} (sign : 0 ≤ z) : decimalString z = decimalDigits z.natAbs :=
    if_neg (Int.not_lt.mpr sign)
  have negative {z : Int} (sign : z < 0) : decimalString z = 45 :: decimalDigits z.natAbs := if_pos sign
  have nonzero {u : UInt32} {z : Int} (value : u.toNat = z.natAbs) (sign : z ≠ 0) : u ≠ 0 := by
    rintro rfl
    exact sign (Int.natAbs_eq_zero.mp value.symm)
  rw [intLexicographicCompare]
  by_cases same : x = y
  · rw [if_pos same, same]
    exact ⟨0, rfl, isOrder_equal _⟩
  rw [if_neg same]
  rcases signs x with ⟨rfl, zeroX⟩ | ⟨signX, aboveX⟩ | ⟨signX, belowX⟩ <;>
    rcases signs y with ⟨rfl, zeroY⟩ | ⟨signY, aboveY⟩ | ⟨signY, belowY⟩
  · exact absurd rfl same
  · rw [if_pos (.inl rfl), if_neg (Int32.lt_asymm signY), zeroX, notNegative aboveY.le]
    exact ⟨_, rfl, isOrder_less (zero_lt_decimalDigits (by omega))⟩
  · rw [if_pos (.inl rfl), if_pos signY, zeroX, negative belowY]
    exact ⟨_, rfl, isOrder_greater (minus_lt_decimalDigits _ 0)⟩
  · rw [if_pos (.inr rfl), if_pos signX, zeroY, notNegative aboveX.le]
    exact ⟨_, rfl, isOrder_greater (zero_lt_decimalDigits (by omega))⟩
  · obtain ⟨valueX, -⟩ := (toNat_natAbs x).1 signX
    obtain ⟨valueY, -⟩ := (toNat_natAbs y).1 signY
    obtain ⟨res, run, order⟩ := compareUnsigned_spec (nonzero valueX (by omega)) (nonzero valueY (by omega))
    rw [if_neg (not_or.mpr ⟨(Int32.ne_of_lt signX).symm, (Int32.ne_of_lt signY).symm⟩), if_pos signY,
      if_neg (Int32.lt_asymm signX), notNegative aboveX.le, notNegative aboveY.le, ← valueX, ← valueY]
    exact ⟨res, run, order⟩
  · rw [if_neg (not_or.mpr ⟨(Int32.ne_of_lt signX).symm, Int32.ne_of_lt signY⟩),
      if_neg (Int32.lt_asymm signY), if_pos signX, notNegative aboveX.le, negative belowY]
    exact ⟨_, rfl, isOrder_greater (minus_lt_decimalDigits _ _)⟩
  · rw [if_pos (.inr rfl), if_neg (Int32.lt_asymm signX), zeroY, negative belowX]
    exact ⟨_, rfl, isOrder_less (minus_lt_decimalDigits _ 0)⟩
  · rw [if_neg (not_or.mpr ⟨Int32.ne_of_lt signX, (Int32.ne_of_lt signY).symm⟩), if_pos signY,
      if_pos signX, negative belowX, notNegative aboveY.le]
    exact ⟨_, rfl, isOrder_less (minus_lt_decimalDigits _ _)⟩
  · obtain ⟨valueX, -⟩ := (toNat_natAbs x).2 signX
    obtain ⟨valueY, -⟩ := (toNat_natAbs y).2 signY
    obtain ⟨res, run, order⟩ := compareUnsigned_spec (nonzero valueX (by omega)) (nonzero valueY (by omega))
    rw [if_neg (not_or.mpr ⟨Int32.ne_of_lt signX, Int32.ne_of_lt signY⟩), if_neg (Int32.lt_asymm signY),
      if_neg (Int32.lt_asymm signX), negative belowX, negative belowY, ← valueX, ← valueY]
    exact ⟨res, run, isOrder_cons order⟩

example : (intLexicographicCompare 9 1000000000, intLexicographicCompare (-2147483648) (-3)) =
    (.ok 1, .ok (-1)) := by decide +kernel

end Lexicographic

end ArkRuntime
