import ArkRuntime.Json.Acceptance
import ArkRuntime.KeyHash.Doubles
import ArkRuntime.Misc.Binary64
import Mathlib.Data.List.TakeWhile

/-!
# The value of a number

`ParseNumber` with the call of `std::strtod`. What `strtod` gives is a parameter: the double that is nearest to the
number of the text, and `ERANGE` if the number is too great for a double or too small.
-/

namespace ArkRuntime

namespace Json

open Binary64

/-! ## The number of a text -/

def isNegative (s : List Nat) : Bool := s.head? = some 0x2D

def fractionDigits : List Nat → List Nat
  | 0x2E :: t => t.takeWhile isDigit
  | _ => []

def behindFraction : List Nat → List Nat
  | 0x2E :: t => t.dropWhile isDigit
  | t => t

def exponentValue : List Nat → Int
  | _ :: 0x2D :: ds => -(digitsValue ds)
  | _ :: 0x2B :: ds => digitsValue ds
  | _ :: ds => digitsValue ds
  | [] => 0

/-- The magnitude of the number, as a fraction. -/
def magnitude (s : List Nat) : Nat × Nat :=
  let t := if isNegative s then s.tail else s
  let int := t.takeWhile isDigit
  let t := t.dropWhile isDigit
  let frac := fractionDigits t
  let exp := exponentValue (behindFraction t) - frac.length
  (digitsValue (int ++ frac) * 10 ^ exp.toNat, 10 ^ (-exp).toNat)

/-! ## `strtod` -/

structure Strtod where
  value : List Nat → UInt64
  overflow : List Nat → Bool
  underflow : List Nat → Bool

/-- `errno == ERANGE` behind the call. -/
def Strtod.erange (strtod : Strtod) (s : List Nat) : Bool := strtod.overflow s || strtod.underflow s

/-- What `strtod` promises for a text: the nearest double, an overflow where that is infinite, and an underflow only
    for a number other than zero that is not above the least normal double, and always if its double is a zero. -/
structure Strtod.Correct (strtod : Strtod) (s : List Nat) : Prop where
  sign : negative (strtod.value s) = isNegative s
  nearest : IsNearest (fun p => scaled p * (magnitude s).2) infinity ((magnitude s).1 * one) (pattern (strtod.value s))
  overflow : strtod.overflow s = true ↔ pattern (strtod.value s) = infinity
  tiny : strtod.underflow s = true → (magnitude s).1 ≠ 0 ∧ pattern (strtod.value s) ≤ 2 ^ 52
  zero : (magnitude s).1 ≠ 0 → pattern (strtod.value s) = 0 → strtod.underflow s = true

/-! ## `ParseNumber` -/

def positiveInfinity : UInt64 := 0x7FF0000000000000

def negativeInfinity : UInt64 := 0xFFF0000000000000

/-- `v > 0`. -/
def isPositive (v : UInt64) : Bool := !KeyHash.isNaN v && !KeyHash.signbit v && !KeyHash.isZeroDouble v

/-- `TryCastDoubleToInt32`. -/
def tryCastDoubleToInt32 (platform : KeyHash.Platform) (d : UInt64) : ArkRuntime.JSNumber :=
  if !KeyHash.doubleEq (ArkRuntime.JSNumber.doubleOfInt (platform.castInt32 d)) d then .double d
  else .int (platform.castInt32 d)

variable (platform : KeyHash.Platform) (strtod : Strtod)

/-- The end of `ParseNumber`, with the text in `strNum`. -/
def numberOfText (strNum : List Nat) : ArkRuntime.JSNumber :=
  let v := strtod.value strNum
  if strtod.erange strNum then
    if isPositive v then .double positiveInfinity else .double negativeInfinity
  else tryCastDoubleToInt32 platform v

/-- `ParseNumber`. -/
def parseNumberValue (mem : List Nat) (inObjOrArr : Bool) (parser : Parser) :
    Except String (ArkRuntime.JSNumber × Parser) :=
  let slow (end_ : Nat) : Except String (ArkRuntime.JSNumber × Parser) :=
    if checkNumber mem end_ parser.current then
      .ok (numberOfText platform strtod ((slice mem parser.current (end_ + 1)).map (· % 256)),
        { parser with current := end_ + 1, end_ })
    else .error "Unexpected Number in JSON"
  if inObjOrArr then
    match readNumberRange mem parser.range parser.current with
    | none => .error "Unexpected Number in JSON Array Or Object"
    | some (.fast fastInteger current) => .ok (.int (Int32.ofInt fastInteger), { parser with current })
    | some (.slow end_) => slow end_
  else slow parser.end_

variable {platform strtod} {mem : List Nat} {s : List Nat} {parser parser' : Parser}

/-! ## Short integers -/

theorem digitsValue_le (ds : List Nat) (digits : IsDigits ds) (n : Nat) :
    ds.foldl (fun n d => 10 * n + (d - 0x30)) n < (n + 1) * 10 ^ ds.length ∧
      n * 10 ^ ds.length ≤ ds.foldl (fun n d => 10 * n + (d - 0x30)) n := by
  induction ds generalizing n with
  | nil => simp
  | cons d ds ih =>
    obtain ⟨digit, rest⟩ := isDigits_cons.mp digits
    have bounds := isDigit_bounds.mp digit
    obtain ⟨upper, lower⟩ := ih rest (10 * n + (d - 0x30))
    rw [List.foldl_cons, List.length_cons, Nat.pow_succ]
    constructor
    · calc _ < (10 * n + (d - 0x30) + 1) * 10 ^ ds.length := upper
        _ ≤ ((n + 1) * 10) * 10 ^ ds.length := Nat.mul_le_mul_right _ (by omega)
        _ = (n + 1) * (10 ^ ds.length * 10) := by ring
    · calc n * (10 ^ ds.length * 10) = (10 * n) * 10 ^ ds.length := by ring
        _ ≤ (10 * n + (d - 0x30)) * 10 ^ ds.length := Nat.mul_le_mul_right _ (by omega)
        _ ≤ _ := lower

theorem digitsValue_short {ds : List Nat} (short : isShortInteger ds = true) :
    0 < digitsValue ds ∧ digitsValue ds < 10 ^ 9 ∧ IsDigits ds := by
  obtain ⟨d, t, rfl, low, high, digits, length⟩ := isShortInteger_iff.mp short
  have all : IsDigits (d :: t) := isDigits_cons.mpr ⟨isDigit_bounds.mpr ⟨by omega, high⟩, digits⟩
  have upper := (digitsValue_le (d :: t) all 0).1
  have lower := (digitsValue_le t digits (d - 0x30)).2
  rw [Nat.zero_add, Nat.one_mul] at upper
  refine ⟨?_, Nat.lt_of_lt_of_le upper (Nat.pow_le_pow_right (by decide) length), all⟩
  have power : 1 * 10 ^ t.length ≤ (d - 0x30) * 10 ^ t.length := Nat.mul_le_mul_right _ (by omega)
  have positive : 0 < 10 ^ t.length := Nat.pow_pos (by decide)
  rw [digitsValue, List.foldl_cons, Nat.mul_zero, Nat.zero_add]
  omega

/-- A text that is a short integer. -/
theorem numberOf_int {i : Int} (is : numberOf s = .int i) :
    ∃ minus ds, s = minus ++ ds ∧ IsMinus minus ∧ isShortInteger ds = true ∧
      i = (digitsValue ds : Int) * if minus = [] then 1 else -1 := by
  have whole : ∀ {minus ds}, s = minus ++ ds → IsMinus minus → isShortInteger ds = true →
      i = (digitsValue ds : Int) * if minus = [] then 1 else -1 := by
    intro minus ds same isMinus short
    rw [same, numberOf_short isMinus short] at is
    injection is with is
    exact is.symm
  rw [numberOf.eq_def] at is
  split at is
  case h_1 ds =>
    split at is
    case isTrue short => exact ⟨[0x2D], ds, rfl, .inr rfl, short, whole rfl (.inr rfl) short⟩
    case isFalse => cases is
  case h_2 =>
    split at is
    case isTrue short => exact ⟨[], s, rfl, .inl rfl, short, whole rfl (.inl rfl) short⟩
    case isFalse => cases is

theorem short_isNumber {i : Int} (is : numberOf s = .int i) : IsNumber s := by
  obtain ⟨minus, ds, rfl, isMinus, short, -⟩ := numberOf_int is
  obtain ⟨d, t, rfl, low, high, digits, -⟩ := isShortInteger_iff.mp short
  exact ⟨minus, d :: t, [], [], by simp, isMinus, .inr ⟨d, t, rfl, low, high, digits⟩, .inl rfl, .inl rfl⟩

theorem takeWhile_digits {ds : List Nat} (digits : IsDigits ds) : ds.takeWhile isDigit = ds ∧ ds.dropWhile isDigit = [] := by
  constructor
  · exact List.takeWhile_eq_self_iff.mpr digits
  · exact List.dropWhile_eq_nil_iff.mpr digits

theorem magnitude_short {minus ds : List Nat} (isMinus : IsMinus minus) (short : isShortInteger ds = true) :
    magnitude (minus ++ ds) = (digitsValue ds, 1) ∧ isNegative (minus ++ ds) = decide (minus ≠ []) := by
  obtain ⟨_, _, digits⟩ := digitsValue_short short
  obtain ⟨take, drop⟩ := takeWhile_digits digits
  obtain ⟨d, t, rfl, low, high, -⟩ := isShortInteger_iff.mp short
  have negative : isNegative (minus ++ d :: t) = decide (minus ≠ []) := by
    rcases isMinus with rfl | rfl
    · have other : d ≠ 0x2D := by omega
      simp [isNegative, other]
    · rfl
  refine ⟨?_, negative⟩
  have behind : (if isNegative (minus ++ d :: t) then (minus ++ d :: t).tail else minus ++ d :: t) = d :: t := by
    rw [negative]
    rcases isMinus with rfl | rfl <;> rfl
  simp only [magnitude, behind, take, drop, fractionDigits, behindFraction, exponentValue]
  simp

/-- The double of an `int` other than zero. -/
theorem doubleOfInt_fields {n : Int32} (notZero : n ≠ 0) :
    negative (ArkRuntime.JSNumber.doubleOfInt n) = decide (n < 0) ∧
      scaled (pattern (ArkRuntime.JSNumber.doubleOfInt n)) = n.toInt.natAbs * one ∧
      pattern (ArkRuntime.JSNumber.doubleOfInt n) < infinity ∧ 2 ^ 52 < pattern (ArkRuntime.JSNumber.doubleOfInt n) := by
  obtain ⟨nonzero, small⟩ := KeyHash.natAbs_bounds notZero
  obtain ⟨log, lower, upper⟩ := KeyHash.scaled_bounds nonzero small
  have bits := KeyHash.toNat_doubleOfInt notZero
  have parts : (ArkRuntime.JSNumber.doubleOfInt n).toNat = (if decide (n < 0) = true then 2 ^ 63 else 0) +
      ((n.toInt.natAbs.log2 + 1022) * 2 ^ 52 + n.toInt.natAbs * 2 ^ (52 - n.toInt.natAbs.log2)) := by
    rw [bits]
    simp only [decide_eq_true_eq]
    omega
  have fields := fields_of_toNat parts (by omega)
  have exponents : 52 - n.toInt.natAbs.log2 + (n.toInt.natAbs.log2 + 1022) = 1074 := by omega
  refine ⟨fields.1, ?_, ?_, ?_⟩
  · rw [fields.2, scaled_normal _ lower (Nat.le_of_lt upper), Nat.mul_assoc, ← Nat.pow_add, exponents, one]
  · rw [fields.2, infinity]
    omega
  · rw [fields.2]
    omega

theorem toInt_ofInt_short {ds : List Nat} (short : isShortInteger ds = true) (minus : List Nat) :
    (Int32.ofInt ((digitsValue ds : Int) * if minus = [] then 1 else -1)).toInt =
      (digitsValue ds : Int) * if minus = [] then 1 else -1 := by
  obtain ⟨_, upper, _⟩ := digitsValue_short short
  split
  · exact Int32.toInt_ofInt_of_le (by omega) (by omega)
  · exact Int32.toInt_ofInt_of_le (by omega) (by omega)

/-- `strtod` gives the double of a short integer. -/
theorem Strtod.Correct.short (correct : strtod.Correct s) {i : Int} (is : numberOf s = .int i) :
    strtod.value s = ArkRuntime.JSNumber.doubleOfInt (Int32.ofInt i) ∧ strtod.erange s = false := by
  obtain ⟨minus, ds, rfl, isMinus, short, rfl⟩ := numberOf_int is
  obtain ⟨positive, _, _⟩ := digitsValue_short short
  obtain ⟨value, negative'⟩ := magnitude_short isMinus short
  have int := toInt_ofInt_short short minus
  generalize Int32.ofInt ((digitsValue ds : Int) * if minus = [] then 1 else -1) = n at int
  have abs : n.toInt.natAbs = digitsValue ds := by
    rw [int]
    split <;> omega
  have notZero : n ≠ 0 := by
    rintro rfl
    rw [Int32.toInt_zero] at abs
    omega
  have less : n < 0 ↔ minus ≠ [] := by
    rw [Int32.lt_iff_toInt_lt, int, Int32.toInt_zero]
    split <;> simp_all
  obtain ⟨sign, exact_, finite, normal⟩ := doubleOfInt_fields notZero
  have nearest := correct.nearest
  rw [value] at nearest
  simp only [Nat.mul_one] at nearest
  have same : pattern (strtod.value (minus ++ ds)) = pattern (ArkRuntime.JSNumber.doubleOfInt n) := by
    refine nearest.unique scaled_strictMono (isNearest_exact scaled_strictMono (Nat.le_of_lt finite) ?_)
    rw [exact_, abs]
  constructor
  · apply UInt64.toNat_inj.mp
    rw [toNat_eq, toNat_eq (ArkRuntime.JSNumber.doubleOfInt n), same, correct.sign, negative', sign, decide_eq_decide.mpr less]
  · rw [Strtod.erange, Bool.or_eq_false_iff, ← Bool.not_eq_true, ← Bool.not_eq_true, correct.overflow]
    exact ⟨by omega, fun under => by have := (correct.tiny under).2; omega⟩

/-! ## The value of a text -/

theorem signbit_eq_negative (bits : UInt64) : KeyHash.signbit bits = negative bits := KeyHash.signbit_eq bits

theorem isZeroDouble_iff_pattern (bits : UInt64) : KeyHash.isZeroDouble bits = true ↔ pattern bits = 0 := by
  have word := bits.toNat_lt
  rw [KeyHash.isZeroDouble_iff, pattern]
  omega

theorem isNaN_eq_false {bits : UInt64} (le : pattern bits ≤ infinity) : KeyHash.isNaN bits = false := by
  rw [← Bool.not_eq_true, KeyHash.isNaN, Bool.and_eq_true, beq_iff_eq, bne_iff_ne]
  rintro ⟨exponent, significand⟩
  have fields := KeyHash.toNat_exponentField bits
  rw [exponent, show (0x7FF : UInt64).toNat = 2047 from rfl] at fields
  have nonzero : bits.toNat % 2 ^ 52 ≠ 0 := by
    rw [← KeyHash.toNat_significand]
    exact fun zero => significand (UInt64.toNat_inj.mp zero)
  rw [pattern, infinity] at le
  omega

/-- The cast keeps the number, up to the sign of a zero. -/
theorem tryCast_number {d : UInt64} (le : pattern d ≤ infinity) :
    KeyHash.doubleEq (tryCastDoubleToInt32 platform d).getNumber d = true ∧
      ((tryCastDoubleToInt32 platform d).getNumber = d ↔ ¬(negative d = true ∧ pattern d = 0)) := by
  have number := isNaN_eq_false le
  rw [tryCastDoubleToInt32]
  cases equal : KeyHash.doubleEq (ArkRuntime.JSNumber.doubleOfInt (platform.castInt32 d)) d with
  | false =>
    refine ⟨by simp [ArkRuntime.JSNumber.getNumber, KeyHash.doubleEq, number], ?_⟩
    simp only [Bool.not_false, if_true, ArkRuntime.JSNumber.getNumber, true_iff]
    rintro ⟨-, zero⟩
    have isZero := (isZeroDouble_iff_pattern d).mpr zero
    have plus : KeyHash.isZeroDouble (ArkRuntime.JSNumber.doubleOfInt 0) = true := by decide
    rw [KeyHash.castInt32_of_isZero platform isZero, KeyHash.doubleEq, isZero, number, plus,
      KeyHash.not_isNaN_doubleOfInt] at equal
    simp at equal
  | true =>
    refine ⟨equal, ?_⟩
    simp only [Bool.not_true, Bool.false_eq_true, if_false, ArkRuntime.JSNumber.getNumber]
    by_cases zero : pattern d = 0
    · have isZero := (isZeroDouble_iff_pattern d).mpr zero
      have plus : ArkRuntime.JSNumber.doubleOfInt (platform.castInt32 d) = 0 := by
        rw [KeyHash.castInt32_of_isZero platform isZero]
        rfl
      have word := toNat_eq d
      rw [plus, ← UInt64.toNat_inj, word, zero]
      cases negative d <;> simp
    · have other : KeyHash.isZeroDouble d = false := by
        rw [← Bool.not_eq_true, isZeroDouble_iff_pattern]
        exact zero
      rw [KeyHash.doubleEq, other, Bool.and_false, Bool.or_false] at equal
      simp only [Bool.and_eq_true, beq_iff_eq] at equal
      simp [equal.2, zero]

theorem Strtod.Correct.pattern_eq_zero (correct : strtod.Correct s) (under : strtod.underflow s = false) :
    pattern (strtod.value s) = 0 ↔ (magnitude s).1 = 0 := by
  constructor
  · intro zero
    by_contra nonzero
    rw [correct.zero nonzero zero] at under
    cases under
  · intro zero
    have positive : 0 < (magnitude s).2 := Nat.pow_pos (by decide)
    have mono : StrictMono fun p => scaled p * (magnitude s).2 :=
      fun _ _ less => Nat.mul_lt_mul_of_pos_right (scaled_strictMono less) positive
    refine correct.nearest.unique mono (isNearest_exact mono (Nat.zero_le _) ?_)
    rw [zero, Nat.zero_mul]
    exact Nat.zero_mul _

theorem eq_infinity {d : UInt64} (infinite : pattern d = infinity) :
    d = if isPositive d then positiveInfinity else negativeInfinity := by
  have zero : KeyHash.isZeroDouble d = false := by
    rw [← Bool.not_eq_true, isZeroDouble_iff_pattern, infinite]
    decide
  have word := toNat_eq d
  rw [infinite] at word
  apply UInt64.toNat_inj.mp
  rw [word, isPositive, isNaN_eq_false (Nat.le_of_eq infinite), zero, signbit_eq_negative]
  cases negative d <;> rfl

/-- The result is the number that `strtod` gives unless this underflows, up to the sign of a zero. -/
theorem numberOfText_iff (correct : strtod.Correct s) :
    (KeyHash.doubleEq (numberOfText platform strtod s).getNumber (strtod.value s) = true ↔ strtod.underflow s = false) ∧
      ((numberOfText platform strtod s).getNumber = strtod.value s ↔
        strtod.underflow s = false ∧ ¬(isNegative s = true ∧ (magnitude s).1 = 0)) := by
  have le := correct.nearest.1
  have number := isNaN_eq_false le
  by_cases range : strtod.erange s = true
  · by_cases overflow : pattern (strtod.value s) = infinity
    · -- an overflow gives the infinity of the sign
      have under : strtod.underflow s = false := by
        rw [← Bool.not_eq_true]
        intro under
        have small := (correct.tiny under).2
        rw [overflow, infinity] at small
        omega
      have nonzero : (magnitude s).1 ≠ 0 := fun zero => by
        rw [← correct.pattern_eq_zero under, overflow] at zero
        cases zero
      have same : (numberOfText platform strtod s).getNumber = strtod.value s := by
        rw [numberOfText, if_pos range, eq_infinity overflow]
        split <;> rfl
      rw [same, KeyHash.doubleEq, number]
      simp [under, nonzero]
    · -- an underflow gives an infinity too
      have under : strtod.underflow s = true := by
        rw [Strtod.erange, Bool.or_eq_true, correct.overflow] at range
        exact range.resolve_left overflow
      have small := (correct.tiny under).2
      have infinite : pattern (numberOfText platform strtod s).getNumber = infinity := by
        rw [numberOfText, if_pos range]
        split <;> decide
      have other : (numberOfText platform strtod s).getNumber ≠ strtod.value s := fun same => overflow (same ▸ infinite)
      have nonzero : KeyHash.isZeroDouble (numberOfText platform strtod s).getNumber = false := by
        rw [← Bool.not_eq_true, isZeroDouble_iff_pattern, infinite]
        decide
      rw [KeyHash.doubleEq, nonzero, beq_eq_false_iff_ne.mpr other]
      simp [under, other]
  · rw [Strtod.erange, Bool.not_eq_true, Bool.or_eq_false_iff] at range
    have cast := @tryCast_number platform _ le
    rw [numberOfText, Strtod.erange, range.1, range.2]
    simp only [Bool.or_self, Bool.false_eq_true, if_false, true_and, iff_true]
    rw [cast.2, correct.sign, correct.pattern_eq_zero range.2]
    exact ⟨cast.1, Iff.rfl⟩

/-! ## The parser -/

/-- The number `s` of a valid text, where the parser stands: the whole text, or in an array or object with a comma or a
    bracket behind it, of which the comma is not the last character of the text. -/
inductive NumberAt (mem : List Nat) (parser : Parser) (s : List Nat) : Bool → Prop where
  | top (le : parser.current ≤ parser.end_) (inside : parser.end_ < mem.length)
      (whole : slice mem parser.current (parser.end_ + 1) = s) : NumberAt mem parser s false
  | nested {w rest : List Nat} {c : Nat} (left : mem.drop parser.current = s ++ (w ++ c :: rest)) (spaces : IsSpaces w)
      (ends : isNumberEnd c = true) (inside : parser.current + s.length + w.length ≤ parser.range)
      (comma : c = 0x2C → parser.current + s.length + w.length < parser.range) : NumberAt mem parser s true

/-- The slow path gives the value of the text. -/
theorem parseNumberValue_of {b : Bool} {n : JSNumber} (parsed : parseNumber mem b parser = .ok (n, parser')) :
    parseNumberValue platform strtod mem b parser =
        .ok (numberOfText platform strtod ((slice mem parser.current parser'.current).map (· % 256)), parser') ∨
      ∃ i, n = .int i ∧ parseNumberValue platform strtod mem b parser = .ok (.int (Int32.ofInt i), parser') := by
  have slow {end_ : Nat} (run : (if checkNumber mem end_ parser.current then
      .ok (numberOf ((slice mem parser.current (end_ + 1)).map (· % 256)), { parser with current := end_ + 1, end_ })
      else .error "Unexpected Number in JSON" : Except String (JSNumber × Parser)) = .ok (n, parser')) :
      (if checkNumber mem end_ parser.current then
        .ok (numberOfText platform strtod ((slice mem parser.current (end_ + 1)).map (· % 256)),
          { parser with current := end_ + 1, end_ })
        else .error "Unexpected Number in JSON" : Except String (ArkRuntime.JSNumber × Parser)) =
        .ok (numberOfText platform strtod ((slice mem parser.current parser'.current).map (· % 256)), parser') := by
    split at run
    case isTrue check =>
      injection run with run
      injection run with _ run
      rw [if_pos check, ← run]
    case isFalse => cases run
  rw [parseNumber] at parsed
  rw [parseNumberValue]
  cases b with
  | false => exact .inl (slow parsed)
  | true =>
    cases found : readNumberRange mem parser.range parser.current with
    | none =>
      simp only [if_true, found] at parsed
      cases parsed
    | some range =>
      simp only [if_true, found] at parsed ⊢
      cases range with
      | fast i c =>
        injection parsed with parsed
        injection parsed with is parsed
        rw [← parsed]
        exact .inr ⟨i, is.symm, rfl⟩
      | slow end_ => exact .inl (slow parsed)

theorem numberOfText_short (correct : strtod.Correct s) {i : Int} (is : numberOf s = .int i) :
    numberOfText platform strtod s = .int (Int32.ofInt i) := by
  obtain ⟨value, range⟩ := correct.short is
  rw [numberOfText, range, value, tryCastDoubleToInt32, KeyHash.castInt32_doubleOfInt, KeyHash.doubleEq,
    KeyHash.not_isNaN_doubleOfInt]
  simp

theorem numberAt_parsed {b : Bool} (number : IsNumber s) (stands : NumberAt mem parser s b) :
    ∃ parser', parseNumber mem b parser = .ok (numberOf s, parser') ∧ parser'.current = parser.current + s.length ∧
      slice mem parser.current parser'.current = s := by
  have nested := nestedNumber_of_isNumber number
  cases stands with
  | top le inside whole =>
    have same : (slice mem parser.current (parser.end_ + 1)).map (· % 256) = s := by
      rw [whole, map_mod_eq fun c inside => part_lt (nested.2 c inside)]
    refine ⟨{ parser with current := parser.end_ + 1 }, (parseNumber_top_iff le inside).mpr ⟨?_, ?_, rfl⟩, ?_, whole⟩
    · rw [whole]
      exact codeNumber_of nested.1
    · rw [same]
    · rw [← whole, slice, List.length_map, List.length_range']
      simp only
      omega
  | nested left spaces ends inside comma =>
    obtain ⟨parser', parsed, behind⟩ := parseNumber_of_nested left nested spaces ends inside fun is => .inl (comma is)
    refine ⟨parser', parsed, behind.position, ?_⟩
    rw [behind.position]
    exact slice_eq left

/-- `ParseNumber` reads a number to its end, and the value is the one of `strtod` if and only if this does not underflow
    and the number is not a zero with a sign; `==` does not tell the sign of a zero. What the fast path accepts is
    the value of the slow path. -/
theorem parseNumber_value_iff (platform : KeyHash.Platform) (strtod : Strtod) :
    (∀ mem parser s b, IsNumber s → NumberAt mem parser s b → strtod.Correct s →
      ∃ v parser', parseNumberValue platform strtod mem b parser = .ok (v, parser') ∧
        parser'.current = parser.current + s.length ∧
        (KeyHash.doubleEq v.getNumber (strtod.value s) = true ↔ strtod.underflow s = false) ∧
        (v.getNumber = strtod.value s ↔
          strtod.underflow s = false ∧ ¬(isNegative s = true ∧ (magnitude s).1 = 0))) ∧
      ∀ mem range p i c, readNumberRange mem range p = some (.fast i c) → strtod.Correct (slice mem p c) →
        IsNumber (slice mem p c) ∧ numberOfText platform strtod (slice mem p c) = .int (Int32.ofInt i) := by
  constructor
  · intro mem parser s b number stands correct
    obtain ⟨parser', parsed, position, text⟩ := numberAt_parsed number stands
    have ascii : s.map (· % 256) = s :=
      map_mod_eq fun c inside => part_lt ((nestedNumber_of_isNumber number).2 c inside)
    refine ⟨numberOfText platform strtod s, parser', ?_, position, numberOfText_iff correct⟩
    obtain slow | ⟨i, is, fast⟩ := parseNumberValue_of parsed
    · rw [slow, text, ascii]
    · rw [fast, numberOfText_short correct is]
  · intro mem range p i c found correct
    obtain ⟨_, number, is⟩ := readNumberRange_fast found
    exact ⟨short_isNumber is, numberOfText_short correct is⟩

/-- A `strtod` for the texts of one number. -/
def strtodOf (value : UInt64) (underflow : Bool) : Strtod := ⟨fun _ => value, fun _ => false, fun _ => underflow⟩

/-- 2.5 -/
def twoAndHalf : UInt64 := 0x4004000000000000

theorem strtodOf_half : (strtodOf twoAndHalf false).Correct [0x32, 0x2E, 0x35] where
  sign := by decide
  nearest := by
    have same : magnitude [0x32, 0x2E, 0x35] = (25, 10) := by decide
    have mono : StrictMono fun p => scaled p * 10 :=
      fun _ _ less => Nat.mul_lt_mul_of_pos_right (scaled_strictMono less) (by decide)
    rw [same]
    exact isNearest_exact mono (by decide) (by decide +kernel)
  overflow := by decide
  tiny := nofun
  zero := by decide

/-- The number 2.5 in an array. -/
theorem parseNumber_value_iff_half (platform : KeyHash.Platform) :
    ∃ v parser', parseNumberValue platform (strtodOf twoAndHalf false) [0x5B, 0x32, 0x2E, 0x35, 0x5D] true
        ⟨1, 4, 4⟩ = .ok (v, parser') ∧ parser'.current = 4 ∧
      (KeyHash.doubleEq v.getNumber twoAndHalf = true ↔ false = false) ∧
      (v.getNumber = twoAndHalf ↔
        false = false ∧ ¬(isNegative [0x32, 0x2E, 0x35] = true ∧ (magnitude [0x32, 0x2E, 0x35]).1 = 0)) :=
  (parseNumber_value_iff platform (strtodOf twoAndHalf false)).1 [0x5B, 0x32, 0x2E, 0x35, 0x5D] ⟨1, 4, 4⟩
    [0x32, 0x2E, 0x35] true
    ⟨[], [0x32], [0x2E, 0x35], [], rfl, .inl rfl, .inr ⟨0x32, [], rfl, by decide, by decide, isDigits_nil⟩,
      .inr ⟨0x35, [], rfl, by decide, isDigits_nil⟩, .inl rfl⟩
    (@NumberAt.nested _ _ _ [] [] 0x5D rfl nofun (by decide) (by decide) (by decide)) strtodOf_half

/-- `1e-400` -/
def tinyText : List Nat := [0x31, 0x65, 0x2D, 0x34, 0x30, 0x30]

theorem strtodOf_tiny : (strtodOf 0 true).Correct tinyText where
  sign := by decide
  nearest := by
    have value : magnitude tinyText = (1, 10 ^ 400) := by rfl
    have far : 2 * one < 10 ^ 400 := by
      calc 2 * one = 2 ^ 1075 := by rw [one, ← Nat.pow_succ']
        _ ≤ 2 ^ (3 * 359) := Nat.pow_le_pow_right (by decide) (by decide)
        _ = (2 ^ 3) ^ 359 := Nat.pow_mul 2 3 359
        _ ≤ 10 ^ 359 := Nat.pow_le_pow_left (by decide) 359
        _ < 10 ^ 400 := Nat.pow_lt_pow_right (by decide) (by decide)
    refine ⟨Nat.zero_le _, fun q _ other => .inl ?_⟩
    have positive : 1 ≤ scaled q := scaled_pos_iff.mpr other
    have great := Nat.mul_le_mul_right (10 ^ 400) positive
    rw [value]
    simp only [show scaled (pattern ((strtodOf 0 true).value tinyText)) = 0 from rfl]
    omega
  overflow := by decide
  tiny := fun _ => ⟨by decide, by decide⟩
  zero := fun _ _ => rfl

/-- `1e-400` is read as `-Infinity`. -/
theorem parseNumber_underflow :
    IsNumber tinyText ∧ NumberAt tinyText ⟨0, 5, 5⟩ tinyText false ∧ (strtodOf 0 true).Correct tinyText ∧
      parseNumberValue ⟨fun _ => 0, fun _ => 0⟩ (strtodOf 0 true) tinyText false ⟨0, 5, 5⟩ =
        .ok (.double negativeInfinity, ⟨6, 5, 5⟩) :=
  ⟨⟨[], [0x31], [], [0x65, 0x2D, 0x34, 0x30, 0x30], rfl, .inl rfl, .inr ⟨0x31, [], rfl, by decide, by decide, nofun⟩,
      .inl rfl, .inr ⟨0x65, [0x2D], 0x34, [0x30, 0x30], rfl, .inl rfl, .inr (.inr rfl), by decide,
        isDigits_cons.mpr ⟨by decide, isDigits_cons.mpr ⟨by decide, isDigits_nil⟩⟩⟩⟩,
    .top (by decide) (by decide) rfl, strtodOf_tiny, rfl⟩

end Json

end ArkRuntime
